import CtxThread.Proofs.Edit.Plan
import CtxThread.Seed

/-!
# The edits that seed a body

Seeding a body inserts a statement after its opening brace or after the first line end in it, and
replaces separators before, between and after the statements. Nothing inside a statement changes.

## Main definitions

- `Seed.Gap`: a replacement of separators outside of all statements

## Main statements

- `Tree.Laid.statements_row`: the statements of a body stand in a row between its braces
- `Seed.mem_edits`: what each edit of a seed is
- `Seed.edits_pairwise`: the edits of a seed stand apart
- `Seed.edits_adds`: one of them brings the statement
-/

namespace CtxThread

open Code (Tree Row Kind)

namespace Code

/-- Trees of a row may be replaced by rows inside of them. -/
theorem Row.flatMap {lo hi : Nat} {ts : List Tree} {f : Tree → List Tree} (h : Row lo ts hi)
    (hf : ∀ t ∈ ts, Row t.start (f t) t.stop) : Row lo (ts.flatMap f) hi := by
  induction ts generalizing lo with
  | nil => exact h
  | cons t ts ih =>
    obtain ⟨hlo, _, hrest⟩ := h
    rw [List.flatMap_cons]
    have hfirst := (hf t List.mem_cons_self).mono hlo le_rfl
    exact hfirst.append (ih hrest fun u hu => hf u (List.mem_cons_of_mem t hu))

namespace Tree

/-- A child that a block takes for statements: the items of a list, or an item by itself. -/
def asStatements (t : Tree) : List Tree :=
  if t.kind = .statementList then t.items else if t.isItem then [t] else []

theorem statements_eq (t : Tree) : t.statements = t.children.flatMap asStatements := rfl

theorem asStatements_of_sign {t : Tree} {s : Sign} (h : t.kind = .sign s) :
    t.asStatements = [] := by
  simp [asStatements, isItem, Kind.isNamed, h]

namespace Laid

variable {src : Bytes} {body : Tree}

theorem asStatements_row {t : Tree} (h : t.Laid src) : Row t.start t.asStatements t.stop := by
  unfold asStatements
  split
  · exact h.row.sublist List.filter_sublist
  · split
    · exact ⟨le_rfl, h.start_le_stop, le_rfl⟩
    · exact h.start_le_stop

/-- The statements of a body stand in a row between its braces. -/
theorem statements_row (h : body.Laid src) (hk : body.kind = .block ∨ body.kind = .literalValue) :
    Row (body.start + 1) body.statements (body.stop - 1) := by
  obtain ⟨x, mid, y, hchildren, hx, hy, _, _, hrow⟩ :=
    h.of_bracketed (h.shaped.braces hk) rfl rfl
  have hmid : body.statements = mid.flatMap asStatements := by
    rw [statements_eq, hchildren]
    simp [asStatements_of_sign hx, asStatements_of_sign hy]
  rw [hmid]
  refine hrow.flatMap fun t ht => asStatements_row (h.of_mem_children ?_)
  rw [hchildren]
  simp [ht]

theorem of_mem_statements (h : body.Laid src) {s : Tree} (hs : s ∈ body.statements) :
    s.Laid src := by
  rw [statements_eq] at hs
  obtain ⟨c, hc, hs⟩ := List.mem_flatMap.mp hs
  have hcl := h.of_mem_children hc
  unfold asStatements at hs
  split at hs
  · exact hcl.of_mem_children (List.mem_filter.mp hs).1
  · split at hs
    · exact List.mem_singleton.mp hs ▸ hcl
    · cases hs

/-- An item below a body that is no list of statements is in one of the statements. -/
theorem exists_statement_of_mem_walk (h : body.Laid src) {c n : Tree} (hc : c ∈ body.children)
    (hn : n ∈ c.walk) (hitem : n.isItem = true) (hlist : n.kind ≠ .statementList) :
    ∃ s ∈ body.statements, n ∈ s.walk := by
  -- what is no item has nothing below it
  have hleaf : ∀ d : Tree, d.Laid src → n ∈ d.walk → d.isItem = true := by
    intro d hd hnd
    by_contra hnot
    have hnil := hd.shaped.leaf (.inl (by simpa using hnot))
    rcases mem_walk_iff.mp hnd with rfl | ⟨e, he, _⟩
    · exact hnot hitem
    · rw [hnil] at he
      cases he
  have hcl := h.of_mem_children hc
  rw [statements_eq]
  by_cases hk : c.kind = .statementList
  · rcases mem_walk_iff.mp hn with rfl | ⟨d, hd, hnd⟩
    · exact absurd hk hlist
    · refine ⟨d, List.mem_flatMap.mpr ⟨c, hc, ?_⟩, hnd⟩
      rw [asStatements, if_pos hk]
      exact List.mem_filter.mpr ⟨hd, hleaf d (hcl.of_mem_children hd) hnd⟩
  · refine ⟨c, List.mem_flatMap.mpr ⟨c, hc, ?_⟩, hn⟩
    rw [asStatements, if_neg hk, if_pos (hleaf c hcl hn)]
    exact List.mem_singleton_self c

end Laid

end Tree

end Code

namespace Seed

open Edit

/-- A replacement of separators between `lo` and `hi` and outside of the trees `ts`. -/
structure Gap (src : Bytes) (lo hi : Nat) (ts : List Tree) (e : Edit) : Prop where
  quiet : e.Quiet src
  blank : (src.between e.start e.stop).substance = []
  le_start : lo ≤ e.start
  stop_le : e.stop ≤ hi
  clear : ∀ t ∈ ts, e.stop ≤ t.start ∨ t.stop ≤ e.start

theorem Gap.keeps {src : Bytes} {lo hi : Nat} {ts : List Tree} {e : Edit}
    (h : Gap src lo hi ts e) : e.Keeps src := by
  rw [Keeps, h.blank]
  exact List.nil_sublist _

/-- Separators on one line may be replaced where no tree stands. -/
theorem gap_of_separators {src : Bytes} {lo hi a b : Nat} {ts : List Tree} {text : String}
    (hlo : lo ≤ a) (hab : a ≤ b) (hhi : b ≤ hi) (hlen : hi ≤ src.length)
    (hline : src.sameLine a b = true) (hsep : src.onlySeparators a b = true)
    (hclear : ∀ t ∈ ts, b ≤ t.start ∨ t.stop ≤ a) : Gap src lo hi ts ⟨a, b, text⟩ := by
  refine ⟨⟨a, b, rfl, rfl, hab, by omega, Bytes.isGuard_eq_false hab hline hsep⟩, ?_, ?_, ?_, ?_⟩
  · rw [Bytes.between_natCast hab (by omega)]
    exact Bytes.substance_eq_nil hsep
  · exact Int.ofNat_le.mpr hlo
  · exact Int.ofNat_le.mpr hhi
  · intro t ht
    have := hclear t ht
    dsimp only
    omega

theorem mem_respace {src : Bytes} {a b : Nat} {text : String} {e : Edit}
    (h : e ∈ respace src a b text) :
    e = ⟨a, b, text⟩ ∧ src.sameLine a b = true ∧ src.onlySeparators a b = true := by
  unfold respace at h
  split at h
  · next hc =>
    rw [Bool.and_eq_true] at hc
    exact ⟨List.mem_singleton.mp h, hc⟩
  · cases h

theorem respace_pairwise (src : Bytes) (a b : Nat) (text : String) (R : Edit → Edit → Prop) :
    (respace src a b text).Pairwise R := by
  unfold respace
  split
  · exact List.pairwise_singleton _ _
  · exact List.Pairwise.nil

/-- The edits behind the first statement: those between two statements, and the one after the
last. -/
def trailing (src : Bytes) (closing : Nat) (inner indent : String) (ts : List Tree) : List Edit :=
  respaceAll src inner ts ++
    match ts.getLast? with
    | some t => respace src t.stop closing ("\n" ++ indent)
    | none => []

theorem trailing_cons_cons (src : Bytes) (closing : Nat) (inner indent : String) (a b : Tree)
    (ts : List Tree) : trailing src closing inner indent (a :: b :: ts) =
      respace src a.stop b.start ("\n" ++ inner) ++
        trailing src closing inner indent (b :: ts) := by
  rw [trailing, respaceAll, List.append_assoc, List.getLast?_cons_cons]
  rfl

/-- The edits behind the first statement replace separators outside of the statements, one after
the other. -/
theorem trailing_gaps {src : Bytes} {lo hi : Nat} (inner indent : String) {a : Tree}
    {ts : List Tree} (hrow : Row lo (a :: ts) hi) (hlen : hi ≤ src.length) :
    (∀ e ∈ trailing src hi inner indent (a :: ts),
        a.stop ≤ e.start ∧ Gap src a.stop hi (a :: ts) e) ∧
      (trailing src hi inner indent (a :: ts)).Pairwise fun e e' => e.stop ≤ e'.start := by
  induction ts generalizing lo a with
  | nil =>
    obtain ⟨_, _, hstop⟩ := hrow
    have htrailing : trailing src hi inner indent [a] = respace src a.stop hi ("\n" ++ indent) :=
      rfl
    rw [htrailing]
    constructor
    · intro e he
      obtain ⟨rfl, hline, hsep⟩ := mem_respace he
      refine ⟨le_rfl, gap_of_separators le_rfl hstop le_rfl hlen hline hsep ?_⟩
      intro t ht
      rw [List.mem_singleton.mp ht]
      exact .inr le_rfl
    · exact respace_pairwise ..
  | cons b ts ih =>
    -- the gap before `b` comes first, and all others start where `b` has ended
    obtain ⟨_, hspan, hrest⟩ := hrow
    obtain ⟨hmem, hpairwise⟩ := ih hrest
    have hb := hrest.bounds_of_mem (List.mem_cons_self (a := b))
    have hlater : ∀ t ∈ b :: ts, b.start ≤ t.start :=
      fun t ht => (hrest.head.bounds_of_mem ht).1
    rw [trailing_cons_cons]
    constructor
    · intro e he
      rcases List.mem_append.mp he with he | he
      · obtain ⟨rfl, hline, hsep⟩ := mem_respace he
        refine ⟨le_rfl, gap_of_separators le_rfl hb.1 (by omega) hlen hline hsep ?_⟩
        intro t ht
        rcases List.mem_cons.mp ht with rfl | ht
        · exact .inr le_rfl
        · exact .inl (hlater t ht)
      · obtain ⟨hstart, hgap⟩ := hmem e he
        refine ⟨by omega, hgap.quiet, hgap.blank, by omega, hgap.stop_le, ?_⟩
        intro t ht
        rcases List.mem_cons.mp ht with rfl | ht
        · exact .inr (by omega)
        · exact hgap.clear t ht
    · refine List.pairwise_append.mpr ⟨respace_pairwise .., hpairwise, ?_⟩
      intro e he e' he'
      obtain ⟨rfl, _, _⟩ := mem_respace he
      have := (hmem e' he').1
      dsimp only
      omega

/-- Where the first statement of a body starts, or its closing brace. -/
def front (body : Tree) : Nat := (body.statements.head?.map (·.start)).getD (body.stop - 1)

theorem sameLine_mono {src : Bytes} {a b c : Nat} (hab : a ≤ b) (hbc : b ≤ c)
    (h : src.sameLine a c = true) : src.sameLine b c = true := by
  rw [Bytes.sameLine, Nat.min_eq_left (by omega), Nat.max_eq_right (by omega)] at h ⊢
  simp only [Bool.not_eq_true', List.contains_eq_mem, decide_eq_false_iff_not] at h ⊢
  intro hfeed
  obtain ⟨i, hi, hlt, hget⟩ := Bytes.exists_getElem?_of_mem_slice hfeed
  exact h (Bytes.mem_slice_of_getElem? (hab.trans hi) hlt hget)

section Edits

variable {src : Bytes} {func body : Tree} {statement : String}

/-- In a body that goes on on the line of its opening brace, the statement comes right after the
brace, and the separators behind the first statement are laid out anew. -/
theorem edits_of_sameLine (hline : src.sameLine body.start (front body) = true) :
    ∃ stop text, edits src func body statement =
        ⟨(body.start + 1 : Nat), stop, "\n" ++ (indentOf src func ++ "\t") ++ statement ++ text⟩ ::
          trailing src (body.stop - 1) (indentOf src func ++ "\t") (indentOf src func)
            body.statements ∧
      (stop = (body.start + 1 : Nat) ∨
        stop = front body ∧ src.onlySeparators (body.start + 1) (front body) = true) := by
  rw [front] at hline
  simp only [edits, hline, Bool.not_true, Bool.false_eq_true, if_false]
  rw [← front]
  by_cases hsep : src.onlySeparators (body.start + 1) (front body) = true
  · refine ⟨_, "\n" ++ (if body.statements.isEmpty then indentOf src func
      else indentOf src func ++ "\t"), ?_, .inr ⟨rfl, hsep⟩⟩
    simp only [hsep, if_true, String.append_assoc]
    rfl
  · refine ⟨_, "\n" ++ (indentOf src func ++ "\t"), ?_, .inl rfl⟩
    simp only [hsep, String.append_assoc, insertion]
    rfl

/-- In a body that has a line end before its first statement, the statement goes behind the line end
that is found. -/
theorem edits_of_lineEnd {eol : Nat} (hline : src.sameLine body.start (front body) = false)
    (heol : src.lineEnd? (body.start + 1) = some eol) : edits src func body statement =
      [.insertion (eol + 1) (indentOf src func ++ "\t" ++ statement ++ "\n")] := by
  rw [front] at hline
  simp only [edits, hline, heol, Bool.not_false, if_true]

variable (hlaid : body.Laid src) (hk : body.kind = .block ∨ body.kind = .literalValue)

include hlaid hk

theorem opens_brace : src[body.start]? = some 0x7B := by
  obtain ⟨x, mid, y, _, _, _, hbrace, _, _⟩ := hlaid.of_bracketed (hlaid.shaped.braces hk) rfl rfl
  exact hbrace

/-- The first statement starts between the braces. -/
theorem front_bounds : body.start + 1 ≤ front body ∧ front body ≤ body.stop - 1 := by
  have hrow := hlaid.statements_row hk
  unfold front
  cases hs : body.statements with
  | nil =>
    rw [hs] at hrow
    exact ⟨hrow, le_rfl⟩
  | cons a ts =>
    rw [hs] at hrow
    obtain ⟨hstart, hspan, hstop⟩ := hrow.bounds_of_mem List.mem_cons_self
    exact ⟨hstart, hspan.trans hstop⟩

/-- All statements start at the first one or after it. -/
theorem front_le {t : Tree} (ht : t ∈ body.statements) : front body ≤ t.start := by
  have hrow := hlaid.statements_row hk
  unfold front
  cases hs : body.statements with
  | nil =>
    rw [hs] at ht
    cases ht
  | cons a ts =>
    rw [hs] at hrow ht
    exact (hrow.head.bounds_of_mem ht).1

/-- A line end in front of the first statement of a body is found behind the brace. -/
theorem exists_lineEnd (hline : src.sameLine body.start (front body) = false) :
    ∃ eol, src.lineEnd? (body.start + 1) = some eol ∧ eol < front body := by
  obtain ⟨hfront, _⟩ := front_bounds hlaid hk
  have hfeed : Bytes.lineFeed ∈ src.slice body.start (front body) := by
    rw [Bytes.sameLine, Nat.min_eq_left (by omega), Nat.max_eq_right (by omega)] at hline
    simpa using hline
  obtain ⟨i, hstart, hlt, hi⟩ := Bytes.exists_getElem?_of_mem_slice hfeed
  have hne : i ≠ body.start := by
    rintro rfl
    rw [opens_brace hlaid hk] at hi
    exact absurd hi (by decide)
  have hle := Nat.lt_of_le_of_ne hstart hne.symm
  obtain ⟨eol, heol⟩ := Bytes.exists_lineEnd? hle hi
  have := Bytes.lineEnd?_le heol hle hi
  exact ⟨eol, heol, by omega⟩

/-- In a body that has a line end before its first statement, the statement is inserted after
the first line end. -/
theorem edits_of_lines (hline : src.sameLine body.start (front body) = false) :
    ∃ eol : Nat, src[eol]? = some Bytes.lineFeed ∧
      edits src func body statement =
        [.insertion (eol + 1) (indentOf src func ++ "\t" ++ statement ++ "\n")] := by
  obtain ⟨eol, heol, _⟩ := exists_lineEnd hlaid hk hline
  exact ⟨eol, (Bytes.getElem?_of_lineEnd? heol).2, edits_of_lineEnd hline heol⟩

/-- What comes behind the first statement of a body replaces separators outside of its
statements. -/
theorem trailing_spec (inner indent : String) :
    (∀ e ∈ trailing src (body.stop - 1) inner indent body.statements,
        front body ≤ e.start ∧
          Gap src (body.start + 1) (body.stop - 1) body.statements e) ∧
      (trailing src (body.stop - 1) inner indent body.statements).Pairwise
        fun e e' => e.stop ≤ e'.start := by
  have hrow := hlaid.statements_row hk
  have hlen : body.stop - 1 ≤ src.length := by
    have := hlaid.stop_le
    omega
  have hfirst : ∀ t ∈ body.statements, front body ≤ t.start := fun t ht => front_le hlaid hk ht
  obtain ⟨hfront, _⟩ := front_bounds hlaid hk
  cases hs : body.statements with
  | nil =>
    refine ⟨?_, List.Pairwise.nil⟩
    intro e he
    cases he
  | cons a ts =>
    rw [hs] at hrow hfirst
    obtain ⟨hmem, hpairwise⟩ := trailing_gaps inner indent hrow hlen
    refine ⟨?_, hpairwise⟩
    intro e he
    obtain ⟨hstart, hgap⟩ := hmem e he
    have ha := hfirst a List.mem_cons_self
    obtain ⟨_, hspan, _⟩ := hrow.bounds_of_mem (List.mem_cons_self (a := a))
    exact ⟨by omega, hgap.quiet, hgap.blank, by omega, hgap.stop_le, hgap.clear⟩

/-- The first edit of a body that goes on on the line of its opening brace. -/
theorem first_spec (hline : src.sameLine body.start (front body) = true) {stop : Int}
    (text : String) (hstop : stop = (body.start + 1 : Nat) ∨
      stop = front body ∧ src.onlySeparators (body.start + 1) (front body) = true) :
    Edit.Guarded src ⟨(body.start + 1 : Nat), stop, text⟩ ∨
      Gap src (body.start + 1) (body.stop - 1) body.statements
        ⟨(body.start + 1 : Nat), stop, text⟩ := by
  obtain ⟨hfront, hend⟩ := front_bounds hlaid hk
  have hlen := hlaid.stop_le
  rcases hstop with rfl | ⟨rfl, hsep⟩
  · refine .inl ⟨body.start + 1, rfl, rfl, by omega, .inr (.inr (.inr ?_))⟩
    exact ⟨body.start, 0x7B, rfl, opens_brace hlaid hk, rfl⟩
  · refine .inr (gap_of_separators le_rfl hfront hend (by omega) ?_ hsep ?_)
    · exact sameLine_mono (Nat.le_succ _) hfront hline
    · exact fun t ht => .inl (front_le hlaid hk ht)

/-- Every edit of a seed is an insertion next to a guard or replaces separators outside of the
statements. -/
theorem mem_edits {e : Edit} (he : e ∈ edits src func body statement) :
    e.Guarded src ∨ Gap src (body.start + 1) (body.stop - 1) body.statements e := by
  cases hline : src.sameLine body.start (front body) with
  | false =>
    obtain ⟨eol, hget, hedits⟩ := edits_of_lines hlaid hk hline
    rw [hedits] at he
    rw [List.mem_singleton.mp he]
    have hlt := (List.getElem?_eq_some_iff.mp hget).1
    exact .inl ⟨eol + 1, rfl, rfl, hlt, .inr (.inr (.inr ⟨eol, _, rfl, hget, rfl⟩))⟩
  | true =>
    obtain ⟨stop, text, hedits, hstop⟩ := edits_of_sameLine hline
    rw [hedits] at he
    rcases List.mem_cons.mp he with rfl | he
    · exact first_spec hlaid hk hline _ hstop
    · exact .inr ((trailing_spec hlaid hk _ _).1 e he).2

/-- The edits of a seed stand apart. -/
theorem edits_pairwise : (edits src func body statement).Pairwise Apart := by
  cases hline : src.sameLine body.start (front body) with
  | false =>
    obtain ⟨eol, _, hedits⟩ := edits_of_lines hlaid hk hline
    rw [hedits]
    exact List.pairwise_singleton _ _
  | true =>
    obtain ⟨stop, text, hedits, hstop⟩ := edits_of_sameLine hline
    obtain ⟨hmem, hpairwise⟩ := trailing_spec hlaid hk (indentOf src func ++ "\t")
      (indentOf src func)
    rw [hedits]
    refine List.Pairwise.cons ?_ (hpairwise.imp fun h => .inl h)
    intro e he
    obtain ⟨hfront, _⟩ := front_bounds hlaid hk
    have hstart := (hmem e he).1
    exact .inl (by dsimp only; omega)

/-- One edit of a seed brings the statement. -/
theorem edits_adds (hstatement : (Bytes.ofString statement).substance ≠ []) :
    ∃ e ∈ edits src func body statement, e.Adds src := by
  cases hline : src.sameLine body.start (front body) with
  | false =>
    obtain ⟨eol, hget, hedits⟩ := edits_of_lines hlaid hk hline
    refine ⟨_, by rw [hedits]; exact List.mem_singleton_self _, ?_⟩
    rw [Adds]
    simp only [insertion, Bytes.between_self, Bytes.ofString_append, Bytes.substance_append,
      List.length_append]
    have := List.length_pos_iff.mpr hstatement
    simp only [Bytes.substance_nil, List.length_nil]
    omega
  | true =>
    obtain ⟨stop, text, hedits, hstop⟩ := edits_of_sameLine hline
    refine ⟨_, by rw [hedits]; exact List.mem_cons_self, ?_⟩
    have hblank : (src.between (body.start + 1 : Nat) stop).substance = [] := by
      rcases first_spec hlaid hk hline text hstop with ⟨p, hp, hp', _⟩ | hgap
      · dsimp only at hp hp'
        rw [hp, hp', Bytes.between_self]
        rfl
      · exact hgap.blank
    rw [Adds, hblank]
    simp only [Bytes.ofString_append, Bytes.substance_append, List.length_append]
    have := List.length_pos_iff.mpr hstatement
    simp only [List.length_nil]
    omega

end Edits

theorem isItem_of_isOwner {n : Tree} (h : isOwner n.kind = true) :
    n.isItem = true ∧ n.kind ≠ .statementList := by
  simp only [isOwner, Kind.isFunc, Kind.isFuncDecl, Bool.or_eq_true, decide_eq_true_eq] at h
  rcases h with h | (h | h) | h <;> simp [Tree.isItem, Kind.isNamed, h]

section Function

variable {src : Bytes} {func body : Tree} (hlaid : func.Laid src)
  (hbody : func.child? .body = some body)

include hlaid hbody

theorem body_laid : body.Laid src ∧ (body.kind = .block ∨ body.kind = .literalValue) := by
  obtain ⟨hmem, hrole⟩ := Tree.mem_of_child? hbody
  have hbodyLaid := hlaid.of_mem_children hmem
  have hadmits := hbodyLaid.shaped.role _ hrole
  exact ⟨hbodyLaid, by simpa [Code.Role.admits] using hadmits⟩

/-- Every edit of a seed is an insertion next to a guard or belongs to the function. -/
theorem edits_owned (hfunc : func.kind.isFunc = true) {statement : String} {e : Edit}
    (he : e ∈ edits src func body statement) : e.Guarded src ∨ e.Owned src func := by
  obtain ⟨hbodyLaid, hkind⟩ := body_laid hlaid hbody
  have hbodyMem := (Tree.mem_of_child? hbody).1
  obtain ⟨h1, _, h2⟩ := hlaid.row.bounds_of_mem hbodyMem
  rcases mem_edits hbodyLaid hkind he with hguarded | hgap
  · exact .inl hguarded
  · have hstart := hgap.le_start
    have hstop := hgap.stop_le
    refine .inr ⟨?_, hgap.quiet, hgap.keeps, by omega, by omega, ?_⟩
    · simp [isOwner, hfunc]
    · -- a call or a function below is in another child of the function or in a statement
      intro c hc n hn howner
      obtain ⟨hcn1, hcn2⟩ := (hlaid.of_mem_children hc).span_le_of_mem_walk hn
      by_cases hcb : c = body
      · subst hcb
        rcases Tree.mem_walk_iff.mp hn with rfl | ⟨d, hd, hnd⟩
        · rcases hkind with hkind | hkind <;>
            · rw [hkind] at howner
              exact absurd howner (by decide)
        · obtain ⟨hitem, hlist⟩ := isItem_of_isOwner howner
          obtain ⟨s, hs, hns⟩ := hbodyLaid.exists_statement_of_mem_walk hd hnd hitem hlist
          obtain ⟨hsn1, hsn2⟩ := (hbodyLaid.of_mem_statements hs).span_le_of_mem_walk hns
          have := hgap.clear s hs
          omega
      · have := hlaid.row.apart_of_ne hc hbodyMem hcb
        omega

end Function

end Seed

end CtxThread
