import CtxThread.Proofs.Import.Added
import CtxThread.Proofs.Code.Spacing
import CtxThread.Proofs.Seed.Layout

/-!
# Seeded bodies and imports

The statement that a handler is seeded with stands on a line of its own, and the other edits of the
body exchange separators for line ends. Where a comment goes over the line end behind the opening
brace, the statement becomes a part of the comment.

## Main definitions

- `Edit.Inert`: text that holds no import wherever it stands

## Main statements

- `Edit.fine_seed`: seeding leaves the imports alone
-/

namespace CtxThread

open Code (Tree Token Kind)
open Code.Token (Cuts Seam EndsName)
open Import (Plain)

/-- An edit behind the first statement replaces separators between two statements, or between the
last one and the closing brace, by a line end and an indentation. -/
theorem Seed.exists_of_mem_trailing {src : Bytes} {closing : Nat} {inner indent : String}
    {ts : List Tree} (happart : ts.Pairwise fun a b => a.stop < b.start) {e : Edit}
    (he : e ∈ trailing src closing inner indent ts) :
    ∃ t ∈ ts, ∃ (stop : Nat) (last : String), e = ⟨t.stop, stop, "\n" ++ last⟩ ∧
      (last = inner ∨ last = indent) ∧
      (stop = closing ∨ ∃ u ∈ ts, stop = u.start ∧ t.stop < u.start) ∧
      src.onlySeparators t.stop stop = true := by
  induction ts with
  | nil => cases he
  | cons t ts ih =>
    obtain ⟨hfirst, hrest⟩ := List.pairwise_cons.mp happart
    rw [trailing_cons] at he
    rcases List.mem_append.mp he with he | he
    · obtain ⟨rfl, -, hsep⟩ := mem_respace he
      refine ⟨t, List.mem_cons_self, _, _, rfl, ?_, ?_, hsep⟩
      · split
        · exact .inr rfl
        · exact .inl rfl
      · cases ts with
        | nil => exact .inl rfl
        | cons u ts => exact .inr ⟨u, by simp, rfl, hfirst u List.mem_cons_self⟩
    · obtain ⟨v, hv, stop, last, heq, hlast, hstop, hsep⟩ := ih hrest he
      refine ⟨v, List.mem_cons_of_mem t hv, stop, last, heq, hlast, hstop.imp_right ?_, hsep⟩
      exact fun ⟨u, hu, h⟩ => ⟨u, List.mem_cons_of_mem t hu, h⟩

namespace Edit

/-- Nothing goes on with a separator. -/
theorem isEdge_of_isSeparator {c : UInt8} (h : Bytes.isSeparator c = true) : IsEdge c := by
  have hall : ∀ n : Fin 256, Bytes.isSeparator (UInt8.ofNat n) = true → IsEdge (UInt8.ofNat n) := by
    decide +kernel
  have := hall ⟨c.toNat, c.toNat_lt⟩
  rw [UInt8.ofNat_toNat] at this
  exact this h

variable {src : Bytes} {root body : Tree} {p q : Nat} {x : Bytes}

/-- Text that holds no import wherever it stands, and that is told apart from what follows. -/
structure Inert (x : Bytes) : Prop where
  ne_nil : x ≠ []
  starless : 0x2A ∉ x
  nul : 0x00 ∉ x
  quoteless : 0x22 ∉ x
  slash : x.head? ≠ some 0x2F
  opens : ∀ c ∈ x.head?, EndsName c
  ends : ∀ c ∈ x.getLast?, EndsName c
  cuts : ∀ b, ∃ us, Cuts b x us ∧ Plain us

theorem ne_of_isBlank {c : UInt8} (h : Bytes.isBlank c = true) :
    c ≠ 0x2A ∧ c ≠ 0x00 ∧ c ≠ 0x2F ∧ c ≠ 0x22 := by
  refine ⟨?_, ?_, ?_, ?_⟩
  all_goals
    rintro rfl
    cases h

/-- Blanks. -/
theorem Inert.of_blanks (hne : x ≠ []) (h : ∀ c ∈ x, Bytes.isBlank c = true) : Inert x where
  ne_nil := hne
  starless hmem := (ne_of_isBlank (h _ hmem)).1 rfl
  nul hmem := (ne_of_isBlank (h _ hmem)).2.1 rfl
  quoteless hmem := (ne_of_isBlank (h _ hmem)).2.2.2 rfl
  slash hhead := (ne_of_isBlank (h _ (List.mem_of_mem_head? hhead))).2.2.1 rfl
  opens c hc := Token.endsName_of_isBlank (h c (List.mem_of_mem_head? hc))
  ends c hc := Token.endsName_of_isBlank (h c (List.mem_of_mem_getLast? hc))
  cuts b := ⟨[], Token.cuts_blanks h b, by simp [Plain]⟩

/-- A statement that handlers are seeded with, between blanks. -/
theorem Inert.of_seed {statement : String}
    (hstatement : statement ∈ [Naming.httpSeed, Naming.echoSeed]) {lead trail : Bytes}
    (hlead : ∀ c ∈ lead, Bytes.isBlank c = true) (hne : lead ≠ [])
    (htrail : ∀ c ∈ trail, Bytes.isBlank c = true) :
    Inert (lead ++ (Bytes.ofString statement ++ Bytes.lineFeed :: trail)) := by
  have hbytes : ∀ s ∈ [Naming.httpSeed, Naming.echoSeed],
      (Bytes.ofString s).all (fun c => c ≠ 0x2A && c ≠ 0x00 && c ≠ 0x22) = true := by
    decide +kernel
  have hall := List.all_eq_true.mp (hbytes _ hstatement)
  simp only [Bool.and_eq_true, decide_eq_true_eq] at hall
  have htrail' : ∀ c ∈ Bytes.lineFeed :: trail, Bytes.isBlank c = true :=
    List.forall_mem_cons.mpr ⟨rfl, htrail⟩
  have hmem : ∀ c ∈ lead ++ (Bytes.ofString statement ++ Bytes.lineFeed :: trail),
      (c ≠ 0x2A ∧ c ≠ 0x00) ∧ c ≠ 0x22 := by
    have hblank : ∀ {c : UInt8}, Bytes.isBlank c = true → (c ≠ 0x2A ∧ c ≠ 0x00) ∧ c ≠ 0x22 := by
      intro c hc
      obtain ⟨hstar, hnul, -, hquote⟩ := ne_of_isBlank hc
      exact ⟨⟨hstar, hnul⟩, hquote⟩
    intro c hc
    rcases List.mem_append.mp hc with hc | hc
    · exact hblank (hlead c hc)
    · rcases List.mem_append.mp hc with hc | hc
      · exact hall c hc
      · exact hblank (htrail' c hc)
  refine ⟨by simp, fun h => (hmem _ h).1.1 rfl, fun h => (hmem _ h).1.2 rfl,
    fun h => (hmem _ h).2 rfl, ?_, ?_, ?_, fun b => ?_⟩
  · rw [List.head?_append_of_ne_nil _ hne]
    exact fun h => (ne_of_isBlank (hlead _ (List.mem_of_mem_head? h))).2.2.1 rfl
  · rw [List.head?_append_of_ne_nil _ hne]
    exact fun c hc => Token.endsName_of_isBlank (hlead c (List.mem_of_mem_head? hc))
  · rw [List.getLast?_append_of_ne_nil _ (by simp), List.getLast?_append_of_ne_nil _ (by simp)]
    exact fun c hc => Token.endsName_of_isBlank (htrail' c (List.mem_of_mem_getLast? hc))
  · obtain ⟨us, hus, hplain⟩ := cuts_seed hstatement (trail ++ b)
    refine ⟨us, ?_, hplain⟩
    have hrest := Cuts.append hus (Token.cuts_blanks htrail' b)
    rw [List.append_nil] at hrest
    exact Cuts.blanks hlead hrest

section Body

variable (hparse : Code.parse? src = some root) (hbody : body ∈ root.walk)
  (hk : body.kind = .block ∨ body.kind = .literalValue)

include hparse hbody hk

/-- Inert text in place of separators of a body, or at a place in it. -/
theorem fine_separators (hpq : p ≤ q) (hstart : body.start ≤ p) (hstop : q ≤ body.stop)
    (hp : Token.Clear src p) (hq : Token.Clear src q) (hsep : src.onlySeparators p q = true)
    {text : String} (hinert : Inert (Bytes.ofString text))
    (hjoins : (∃ i c, p = i + 1 ∧ src[i]? = some c ∧ Bytes.isGuard c = true ∧
      Token.Clear src i) ∨ ∀ b, Seam (src.drop p) (Bytes.ofString text ++ b)) :
    Fine src ⟨p, q, text⟩ ∧ Inert (Bytes.ofString text) := by
  have hlaid := (Code.parse?_laid hparse).of_mem_walk hbody
  have hsep : ∀ c ∈ src.slice p q, Bytes.isSeparator c = true := List.all_eq_true.mp hsep
  have hopen := (Seed.braces hlaid hk).1
  have hlen := hlaid.stop_le
  have hbase := (Token.base_le hopen (by decide)).trans hstart
  refine ⟨⟨hinert.ne_nil, .spaced hinert.opens hinert.ends, p, q, rfl, rfl, hbase,
    .inl ⟨⟨hpq, hstop.trans hlen, hp, hq, ?_, hinert.starless, hinert.slash, .inr hjoins,
      .inl hinert.ends⟩, ?_⟩⟩, hinert⟩
  · intro hmem
    have := hsep _ hmem
    cases this
  · rw [isGroup_eq_false hinert.quoteless, if_neg (by decide)]
    refine ⟨?_, fun vs hvs => ?_, fun b _ => hinert.cuts b⟩
    · refine Import.readTo_of_mem_walk hparse hbody ?_ ?_ ?_ hstart (hpq.trans hstop)
      · rcases hk with hk | hk <;> rw [hk] <;> rfl
      · rcases hk with hk | hk <;> rw [hk] <;> rfl
      · rcases hk with hk | hk <;> rw [hk] <;> decide
    · rw [hvs.eq_nil hsep]
      simp [Plain]

/-- The gaps behind the statements of a body may get a line end. -/
theorem fine_trailing {inner indent : String}
    (hinner : ∀ c ∈ Bytes.ofString inner, Bytes.isBlank c = true)
    (hindent : ∀ c ∈ Bytes.ofString indent, Bytes.isBlank c = true) {e : Edit}
    (he : e ∈ Seed.trailing src (body.stop - 1) inner indent body.statements) :
    Fine src e ∧ Inert (Bytes.ofString e.text) := by
  have hlaid := (Code.parse?_laid hparse).of_mem_walk hbody
  have hrow := hlaid.statements_row hk
  obtain ⟨-, hclose, hbraces⟩ := Seed.braces hlaid hk
  obtain ⟨t, ht, stop, last, rfl, hlast, hstop, hsep⟩ :=
    Seed.exists_of_mem_trailing (Code.statements_apart hparse hbody hk) he
  have hbounds := hrow.bounds_of_mem ht
  have hblank : ∀ c ∈ Bytes.ofString ("\n" ++ last), Bytes.isBlank c = true := by
    rw [Seed.ofString_line, Seed.line, List.append_nil]
    refine List.forall_mem_cons.mpr ⟨rfl, ?_⟩
    rcases hlast with rfl | rfl
    · exact hinner
    · exact hindent
  have hne : Bytes.ofString ("\n" ++ last) ≠ [] := by
    rw [Seed.ofString_line]
    exact List.cons_ne_nil _ _
  have hclear := (Code.clear_statement hparse hbody hk ht).2.scanned hparse
  have hstop' : t.stop ≤ stop ∧ stop ≤ body.stop - 1 ∧ Token.Clear src stop := by
    rcases hstop with rfl | ⟨u, hu, rfl, hlt⟩
    · exact ⟨hbounds.2.2, le_rfl, (Code.clear_braces hparse hbody hk).2.scanned hparse⟩
    · have := hrow.bounds_of_mem hu
      exact ⟨hlt.le, by omega, (Code.clear_statement hparse hbody hk hu).1.scanned hparse⟩
  refine fine_separators hparse hbody hk hstop'.1 (by omega) (by omega) hclear hstop'.2.2 hsep
    (.of_blanks hne hblank) (.inr fun b => ?_)
  rw [Seed.ofString_line]
  refine seam_lineFeed (fun c hc => ?_) _
  rw [List.head?_drop] at hc
  by_cases hlt : t.stop < stop
  · have hmem : c ∈ src.slice t.stop stop := Bytes.mem_slice_of_getElem? le_rfl hlt hc
    exact isEdge_of_isSeparator (List.all_eq_true.mp hsep c hmem)
  · -- nothing separates the last statement from the closing brace
    obtain rfl : stop = body.stop - 1 := by
      rcases hstop with h | ⟨u, hu, rfl, hlt'⟩
      · exact h
      · omega
    rw [show t.stop = body.stop - 1 by omega, hclose] at hc
    rw [← Option.some.inj hc]
    decide

/-- A token that goes over the first line end in front of the statements of a body is a comment. It
goes on on the next line. -/
theorem comment_of_front {eol : Nat} (heol : src.lineEnd? (body.start + 1) = some eol)
    (hlt : eol < Seed.front body) {t : Token} (ht : t ∈ Token.scan src) (hl : t.lexeme ≠ .newline)
    (hstart : t.start ≤ eol) (hstop : eol < t.stop) : t.lexeme = .comment ∧ eol + 1 < t.stop := by
  have hroot := Code.parse?_laid hparse
  have hlaid := hroot.of_mem_walk hbody
  obtain ⟨hle, hget⟩ := Bytes.getElem?_of_lineEnd? heol
  obtain ⟨-, hend⟩ := Seed.front_bounds hlaid hk
  obtain ⟨y, hy, hystart, hystop, hsuits, hown⟩ := (Code.parse?_leaf hparse ht).2 hl
  have htoken := Code.Lexeme.isToken_of_suits hsuits
  have hfeed : Bytes.lineFeed ∈ y.bytes := by
    rw [Code.bytes_of_isToken hparse hy htoken]
    exact Bytes.mem_slice_of_getElem? (by omega) (by omega) hget
  have hform := Code.parse?_formed Code.outsideLiterals_agrees hparse hy
  have hsolid : y.kind.isSolid = true := by
    rcases Bool.or_eq_true_iff.mp htoken with hsolid | hpart
    · exact hsolid
    · exact absurd hfeed (hform.line hpart).2
  have hcomment : y.kind = .comment := by
    by_contra hne
    have hitem : y.isItem = true := by
      have hnamed : y.kind.isNamed = true := by
        revert hsolid
        cases y.kind <;> first | exact fun _ => rfl | exact fun h => nomatch h
      simp [Tree.isItem, hnamed, hne]
    have hinner : Token.isInner body.kind = false := by
      rcases hk with hk | hk <;> rw [hk] <;> rfl
    rcases Code.cases_of_isToken hparse hy hbody htoken hinner with rfl | h | h | ⟨c, hc, hyc⟩
    · rcases hk with hk | hk <;> rw [hk] at htoken <;> cases htoken
    · omega
    · omega
    · -- it would be in a statement, and so behind the line end
      have hlist : y.kind ≠ .statementList := by
        intro h
        rw [h] at htoken
        cases htoken
      obtain ⟨s, hs, hys⟩ := hlaid.exists_statement_of_mem_walk hc hyc hitem hlist
      have := Seed.front_le hlaid hk hs
      have := (hlaid.of_mem_statements hs).span_le_of_mem_walk hys
      omega
  have hl' := hown hcomment
  refine ⟨hl', ?_⟩
  obtain ⟨-, hlt', hclose⟩ := Token.block_of_lineFeed ht hl' hget hstart hstop
  obtain ⟨k, hk, hslash⟩ := Token.slash_of_commentClose? hclose
  by_contra hge
  rw [List.getElem?_drop, show t.start + 2 + k = eol by omega, hget] at hslash
  cases hslash

/-- The edits that seed a body leave the imports alone. -/
theorem fine_seed {func : Tree} {statement : String}
    (hstatement : statement ∈ [Naming.httpSeed, Naming.echoSeed]) {e : Edit}
    (he : e ∈ Seed.edits src func body statement) : Fine src e ∧
      Inert (Bytes.ofString e.text) := by
  have hlaid := (Code.parse?_laid hparse).of_mem_walk hbody
  obtain ⟨hopen, hclose, hbraces⟩ := Seed.braces hlaid hk
  obtain ⟨hfront, hend⟩ := Seed.front_bounds hlaid hk
  have hlen := hlaid.stop_le
  have hisBlank : ∀ {x : Bytes}, x.all Bytes.isIndent = true → ∀ c ∈ x, Bytes.isBlank c = true :=
    fun h c hc => Seed.isBlank_of_isIndent (List.all_eq_true.mp h c hc)
  have hindent : ∀ c ∈ Bytes.ofString (Seed.indentOf src func), Bytes.isBlank c = true := by
    rw [Seed.ofString_indentOf]
    exact hisBlank (Seed.all_isIndent_indentBytes ..)
  have hinner : ∀ c ∈ Bytes.ofString (Seed.indentOf src func ++ "\t"), Bytes.isBlank c = true := by
    rw [Seed.ofString_inner]
    exact hisBlank (Seed.all_isIndent_innerIndent ..)
  cases hline : src.sameLine body.start (Seed.front body) with
  | true =>
    have hinert : ∀ last : String, (∀ c ∈ Bytes.ofString last, Bytes.isBlank c = true) →
        Inert (Bytes.ofString ("\n" ++ (Seed.indentOf src func ++ "\t") ++ statement ++ "\n" ++
          last)) := by
      intro last hlast
      rw [Seed.ofString_lines]
      have hlead : ∀ c ∈ Bytes.lineFeed :: Bytes.ofString (Seed.indentOf src func ++ "\t"),
          Bytes.isBlank c = true := List.forall_mem_cons.mpr ⟨rfl, hinner⟩
      have := Inert.of_seed hstatement hlead (List.cons_ne_nil _ _) hlast
      simpa only [Seed.line, List.cons_append, List.append_assoc, List.append_nil] using this
    have hguard : ∃ i c, body.start + 1 = i + 1 ∧ src[i]? = some c ∧ Bytes.isGuard c = true ∧
        Token.Clear src i := by
      refine ⟨body.start, 0x7B, rfl, hopen, rfl, (Code.clear_of_isInner hparse hbody ?_).1.scanned
        hparse⟩
      rcases hk with hk | hk <;> rw [hk] <;> rfl
    have hopening := (Code.clear_braces hparse hbody hk).1.scanned hparse
    rw [Seed.edits_eq_cons hline] at he
    rcases List.mem_cons.mp he with rfl | he
    · dsimp only
      split
      · next hsep =>
        refine fine_separators hparse hbody hk hfront (by omega) (by omega) hopening
          ((Seed.clear_front hparse hbody hk).scanned hparse) hsep (hinert _ ?_) (.inl hguard)
        split
        · exact hindent
        · exact hinner
      · exact fine_separators hparse hbody hk le_rfl (by omega) (by omega) hopening hopening
          (by simp [Bytes.onlySeparators, Bytes.slice_self]) (hinert _ hinner) (.inl hguard)
    · exact fine_trailing hparse hbody hk hinner hindent he
  | false =>
    obtain ⟨eol, heol, hlt⟩ := Seed.exists_lineEnd hlaid hk hline
    obtain ⟨hle, hget⟩ := Bytes.getElem?_of_lineEnd? heol
    rw [Seed.edits_of_lineEnd hline heol] at he
    obtain rfl := List.mem_singleton.mp he
    have hinert : Inert (Bytes.ofString (Seed.indentOf src func ++ "\t" ++ statement ++ "\n")) := by
      rw [Bytes.ofString_append, Bytes.ofString_append]
      have hne : Bytes.ofString (Seed.indentOf src func ++ "\t") ≠ [] := by
        rw [Seed.ofString_inner, Seed.innerIndent]
        simp
      have := Inert.of_seed hstatement hinner hne (List.forall_mem_nil _)
      rwa [← List.append_assoc] at this
    by_cases hcross : ∃ t ∈ Token.scan src, t.lexeme ≠ .newline ∧ t.start ≤ eol ∧ eol < t.stop
    · -- the line end is inside a comment, and so is the statement then
      obtain ⟨t, ht, hl, hstart, hstop⟩ := hcross
      obtain ⟨hcomment, hbehind⟩ := comment_of_front hparse hbody hk heol hlt ht hl hstart hstop
      refine ⟨⟨hinert.ne_nil, .spaced hinert.opens hinert.ends, eol + 1, eol + 1, rfl, rfl, ?_,
        .inr ⟨?_, rfl, ?_⟩⟩, hinert⟩
      · exact (Token.base_le hget (by decide)).trans (Nat.le_succ _)
      · exact isGroup_eq_false hinert.quoteless
      · exact ⟨⟨t, ht, hcomment, by omega, hbehind⟩, ⟨eol, rfl, hget⟩, hinert.starless, hinert.nul⟩
    · have hclear : Token.Clear src eol ∧ Token.Clear src (eol + 1) := by
        constructor
        all_goals
          intro t ht hl
          by_contra hin
          exact hcross ⟨t, ht, hl, by omega, by omega⟩
      exact fine_separators hparse hbody hk le_rfl (by omega) (by omega) hclear.2 hclear.2
        (by simp [Bytes.onlySeparators, Bytes.slice_self]) hinert
        (.inl ⟨eol, _, rfl, hget, rfl, hclear.1⟩)

end Body

end Edit

end CtxThread
