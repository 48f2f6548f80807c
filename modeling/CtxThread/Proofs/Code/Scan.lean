import CtxThread.Code.Token.Scan
import CtxThread.Proofs.Code.Layout

/-!
# Tokens lie over the text they are cut from

Every token holds the bytes of its span, no token is empty, and the tokens of a text stand one
after the other. The nodes inside a string literal stand in a row inside the literal.

## Main definitions

- `Token.Laid`: a token that lies over a text
- `Stream`: tokens one after the other, from a given offset on

## Main statements

- `Token.scan_stream`: the tokens of a text lie over it
-/

namespace CtxThread.Code

/-- The token lies over the text `src`. Only a literal holds nodes, and they stand in a row. -/
structure Token.Laid (src : Bytes) (t : Token) : Prop where
  start_lt : t.start < t.stop
  stop_le : t.stop ≤ src.length
  bytes : t.bytes = src.slice t.start t.stop
  row : Row t.start t.inner t.stop
  inner : ∀ c ∈ t.inner, Tree.Laid src c
  plain : (∀ k, t.lexeme ≠ .literal k) → t.inner = []
  sign : ∀ s b, t.lexeme = .sign s → s.bracket? = some b → t.bytes = [b]

/-- The tokens lie over the text `src` one after the other, the first not before `lo`. -/
def Stream (src : Bytes) : Nat → List Token → Prop
  | lo, [] => lo ≤ src.length
  | lo, t :: ts => lo ≤ t.start ∧ t.Laid src ∧ Stream src t.stop ts

namespace Stream

variable {src : Bytes} {lo : Nat} {ts : List Token}

theorem le_length (h : Stream src lo ts) : lo ≤ src.length := by
  cases ts with
  | nil => exact h
  | cons t ts =>
    obtain ⟨hlo, ht, _⟩ := h
    have := ht.start_lt
    have := ht.stop_le
    omega

theorem mono (h : Stream src lo ts) {lo' : Nat} (hlo : lo' ≤ lo) : Stream src lo' ts := by
  cases ts with
  | nil => exact Nat.le_trans hlo h
  | cons t ts => exact ⟨Nat.le_trans hlo h.1, h.2⟩

end Stream

namespace Number

/-- No form of number is empty. -/
theorem integers_pos {src : Bytes} {n : Nat} (h : n ∈ integers src) : 0 < n := by
  unfold integers at h
  split at h
  · cases h
  · next b rest =>
    split at h
    · simp only [List.mem_cons, List.mem_append] at h
      rcases h with rfl | (h | h) | h
      · omega
      all_goals
        split at h
        · split at h
          · simp only [List.mem_singleton] at h
            omega
          · cases h
        · cases h
    · split at h
      · next hb =>
        simp only [List.mem_singleton] at h
        simp only [groups, hb, Bool.true_or, if_true] at h
        omega
      · cases h

theorem decimalFloats_pos {src : Bytes} {n : Nat} (h : n ∈ decimalFloats src) : 0 < n := by
  simp only [decimalFloats, List.mem_append] at h
  rcases h with h | h
  · split at h
    · split at h
      · cases h
      · simp only [List.mem_singleton] at h
        omega
    · cases h
  · split at h
    · next hw =>
      simp only [ne_eq, Bool.and_eq_true, decide_eq_true_eq] at hw
      simp only [List.mem_singleton] at h
      omega
    · cases h

theorem hexFloats_pos {src : Bytes} {n : Nat} (h : n ∈ hexFloats src) : 0 < n := by
  unfold hexFloats at h
  split at h
  · split at h
    · obtain ⟨m, _, hm⟩ := List.mem_filterMap.mp h
      dsimp only at hm
      split at hm
      · cases hm
      · simp only [Option.some.injEq] at hm
        omega
    · cases h
  · cases h

theorem forms_pos {src : Bytes} {f : Kind × Nat} (h : f ∈ forms src) : 0 < f.2 := by
  simp only [forms, List.mem_append, List.mem_map] at h
  rcases h with (⟨n, hn, rfl⟩ | ⟨n, hn | hn, rfl⟩) | ⟨n, _, rfl⟩
  · exact integers_pos hn
  · exact decimalFloats_pos hn
  · exact hexFloats_pos hn
  · exact Nat.succ_pos n

/-- The longest number is one of the forms. -/
theorem longest?_mem_forms {src : Bytes} {f : Kind × Nat} (h : longest? src = some f) :
    f ∈ forms src := by
  suffices hfold : ∀ best, (forms src).foldl _ best = some f → f ∈ forms src ∨ best = some f by
    exact (hfold none h).resolve_right (by simp)
  generalize forms src = fs
  induction fs with
  | nil => exact fun best hf => .inr hf
  | cons g gs ih =>
    intro best hf
    rw [List.foldl_cons] at hf
    rcases ih _ hf with hmem | hbest
    · exact .inl (List.mem_cons_of_mem g hmem)
    · cases best with
      | none =>
        simp only [Option.some.injEq] at hbest
        exact .inl (hbest ▸ List.mem_cons_self)
      | some b =>
        dsimp only at hbest
        split at hbest
        · simp only [Option.some.injEq] at hbest
          exact .inl (hbest ▸ List.mem_cons_self)
        · exact .inr hbest

end Number

namespace Quoted

/-- The number of bytes that parts of a literal take. -/
def total (parts : List (Kind × Nat)) : Nat := parts.foldr (fun p n => p.2 + n) 0

theorem total_cons (p : Kind × Nat) (ps : List (Kind × Nat)) : total (p :: ps) = p.2 + total ps :=
  rfl

theorem total_append (ps qs : List (Kind × Nat)) : total (ps ++ qs) = total ps + total qs := by
  induction ps with
  | nil => simp [total]
  | cons p ps ih => simp only [List.cons_append, total_cons, ih]; omega

/-- The parts of a string and its closing quote are bytes of the text. -/
theorem parts?_total {fuel : Nat} {src : Bytes} {ps : List (Kind × Nat)}
    (h : parts? fuel src = some ps) : total ps + 1 ≤ src.length := by
  induction fuel generalizing src ps with
  | zero => cases h
  | succ fuel ih =>
    cases src with
    | nil => cases h
    | cons b rest =>
      simp only [parts?] at h
      split at h
      · cases h
        simp [total]
      · split at h
        -- an escape sequence, then a run of plain text
        · obtain ⟨n, _, hn⟩ := Option.bind_eq_some_iff.mp h
          obtain ⟨qs, hqs, rfl⟩ := Option.map_eq_some_iff.mp hn
          have hle := ih hqs
          rw [List.length_drop] at hle
          rw [total_cons, List.length_cons]
          dsimp only
          omega
        · split at h
          · obtain ⟨qs, hqs, rfl⟩ := Option.map_eq_some_iff.mp h
            have hle := ih hqs
            rw [List.length_drop] at hle
            rw [total_cons, List.length_cons]
            dsimp only
            omega
          · cases h

/-- The kinds of the parts of a string in double quotes. -/
theorem parts?_kind {fuel : Nat} {src : Bytes} {ps : List (Kind × Nat)}
    (h : parts? fuel src = some ps) :
    ∀ p ∈ ps, p.1 = .escapeSequence ∨ p.1 = .interpretedStringLiteralContent := by
  induction fuel generalizing src ps with
  | zero => cases h
  | succ fuel ih =>
    cases src with
    | nil => cases h
    | cons b rest =>
      simp only [parts?] at h
      split at h
      · cases h
        intro p hp
        cases hp
      · split at h
        · obtain ⟨n, _, hn⟩ := Option.bind_eq_some_iff.mp h
          obtain ⟨qs, hqs, rfl⟩ := Option.map_eq_some_iff.mp hn
          intro p hp
          rcases List.mem_cons.mp hp with rfl | hp
          · exact .inl rfl
          · exact ih hqs p hp
        · split at h
          · obtain ⟨qs, hqs, rfl⟩ := Option.map_eq_some_iff.mp h
            intro p hp
            rcases List.mem_cons.mp hp with rfl | hp
            · exact .inr rfl
            · exact ih hqs p hp
          · cases h

/-- A text in back quotes and its closing quote are bytes of the text. -/
theorem raw?_lt {src : Bytes} {n : Nat} (h : raw? src = some n) : n + 1 ≤ src.length := by
  simp only [raw?] at h
  split at h
  · next hopen =>
    cases h
    by_contra hlt
    rw [List.drop_eq_nil_of_le (by omega)] at hopen
    cases hopen
  · cases h

end Quoted

namespace Token

/-- The kinds of the nodes inside a string literal: its quotation marks and its parts. -/
def isInner (k : Kind) : Bool :=
  k = .sign .quote || k = .sign .backquote || k = .escapeSequence ||
    k = .interpretedStringLiteralContent || k = .rawStringLiteralContent

/-- The shape fits the text `src` that it was read off. -/
structure Shape.Fits (src : Bytes) (s : Shape) : Prop where
  pos : 0 < s.length
  total : Quoted.total s.parts ≤ min s.length src.length
  inner : ∀ p ∈ s.parts, isInner p.1 = true
  plain : (∀ k, s.lexeme ≠ .literal k) → s.parts = []
  sign : ∀ g b, s.lexeme = .sign g → g.bracket? = some b → src.take s.length = [b]

/-- A shape without parts that is no sign fits if it is not empty. -/
theorem Shape.Fits.of_plain {src : Bytes} {l : Lexeme} {n : Nat} (hn : 0 < n)
    (hl : ∀ g b, l = .sign g → g.bracket? ≠ some b) : Shape.Fits src ⟨l, n, []⟩ where
  pos := hn
  total := Nat.zero_le _
  inner := by intro p hp; cases hp
  plain := fun _ => rfl
  sign := fun g b hg hb => absurd hb (hl g b hg)

theorem comment?_pos {src : Bytes} {n : Nat} (h : comment? src = some n) : 0 < n := by
  unfold comment? at h
  split at h
  · split at h
    · simp only [Option.some.injEq] at h
      omega
    · split at h
      · obtain ⟨m, _, hm⟩ := Option.map_eq_some_iff.mp h
        omega
      · cases h
  · cases h

/-- A literal between quotation marks takes the bytes of its parts and of the two marks. -/
theorem quoted_fits {src : Bytes} {k : Kind} {mark : Sign} {parts : List (Kind × Nat)}
    (hmark : mark = .quote ∨ mark = .backquote) (hparts : ∀ p ∈ parts, isInner p.1 = true)
    (htotal : Quoted.total parts + 2 ≤ src.length) : (quoted k mark parts).Fits src where
  pos := by simp only [quoted]; omega
  total := by
    have h : Quoted.total (quoted k mark parts).parts = Quoted.total parts + 2 := by
      simp only [quoted, List.cons_append, Quoted.total_cons, Quoted.total_append]
      change 1 + (Quoted.total parts + (1 + 0)) = _
      omega
    have hlength : (quoted k mark parts).length = 2 + Quoted.total parts := rfl
    rw [h, hlength]
    omega
  inner := by
    have hm : isInner (.sign mark) = true := by rcases hmark with rfl | rfl <;> rfl
    intro p hp
    simp only [quoted, List.cons_append, List.mem_cons, List.mem_append, List.not_mem_nil,
      or_false] at hp
    rcases hp with rfl | hp | rfl
    · exact hm
    · exact hparts p hp
    · exact hm
  plain := fun h => absurd rfl (h k)
  sign := by intro g b hg; cases hg

theorem quoted?_fits {src : Bytes} {s : Shape} (h : quoted? src = some s) : s.Fits src := by
  unfold quoted? at h
  split at h
  · cases h
  · next b rest =>
    split at h
    · obtain ⟨ps, hps, rfl⟩ := Option.map_eq_some_iff.mp h
      have htotal := Quoted.parts?_total hps
      refine quoted_fits (.inl rfl) ?_ (by rw [List.length_cons]; omega)
      intro p hp
      rcases Quoted.parts?_kind hps p hp with hk | hk <;> rw [hk] <;> rfl
    · split at h
      · obtain ⟨n, hn, rfl⟩ := Option.map_eq_some_iff.mp h
        have hlt := Quoted.raw?_lt hn
        refine quoted_fits (.inr rfl) ?_ ?_
        · intro p hp
          rw [List.mem_singleton.mp hp]
          rfl
        · change n + 0 + 2 ≤ (b :: rest).length
          rw [List.length_cons]
          omega
      · split at h
        · obtain ⟨n, hn, rfl⟩ := Option.map_eq_some_iff.mp h
          obtain ⟨m, _, hm⟩ := Option.bind_eq_some_iff.mp hn
          split at hm
          · cases hm
            exact .of_plain (by omega) (by intro g b hg; cases hg)
          · cases hm
        · cases h

/-- A bracket is no keyword. -/
theorem bracket?_keyword {s : String} {g : Sign} (h : Sign.keywords.lookup s = some g) :
    g.bracket? = none := by
  have hall : ∀ e ∈ Sign.keywords, e.2.bracket? = none := by decide
  obtain ⟨l₁, l₂, hsplit, _⟩ := List.lookup_eq_some_iff.mp h
  exact hall (s, g) (by rw [hsplit]; simp)

theorem nameLexeme_bracket {name : Bytes} {g : Sign} {b : UInt8}
    (h : nameLexeme name = .sign g) : g.bracket? ≠ some b := by
  unfold nameLexeme at h
  dsimp only at h
  split at h
  · next k hk =>
    simp only [Lexeme.sign.injEq] at h
    subst h
    rw [bracket?_keyword hk]
    exact Option.some_ne_none b |>.symm
  · cases h

/-- A bracket is spelled as the one byte that it is. -/
theorem punctuation_spelling :
    ∀ e ∈ Sign.punctuation, 0 < (Bytes.ofString e.1).length ∧
      ∀ b, e.2.bracket? = some b → Bytes.ofString e.1 = [b] := by
  have h : ∀ e ∈ Sign.punctuation, 0 < (Bytes.ofString e.1).length ∧
      (e.2.bracket?.all fun b => Bytes.ofString e.1 = [b]) = true := by
    decide +kernel
  intro e he
  refine ⟨(h e he).1, fun b hb => ?_⟩
  have := (h e he).2
  rw [hb] at this
  simpa using this

theorem punctuation?_fits {src : Bytes} {g : Sign} {n : Nat}
    (h : punctuation? src = some (g, n)) : Shape.Fits src ⟨.sign g, n, []⟩ := by
  obtain ⟨e, he, hen⟩ := Option.map_eq_some_iff.mp h
  simp only [Prod.mk.injEq] at hen
  obtain ⟨rfl, rfl⟩ := hen
  obtain ⟨hpos, hspell⟩ := punctuation_spelling e (List.mem_of_find?_eq_some he)
  have hprefix := List.find?_some he
  refine ⟨hpos, Nat.zero_le _, ?_, fun _ => rfl, ?_⟩
  · intro p hp
    cases hp
  · intro g' b hg hb
    simp only [Lexeme.sign.injEq] at hg
    subst hg
    obtain ⟨rest, hrest⟩ := List.isPrefixOf_iff_prefix.mp hprefix
    rw [← hrest, List.take_left]
    exact hspell b hb

/-- The token that a text opens with has a shape that fits. -/
theorem next_fits (src : Bytes) : (next src).Fits src := by
  unfold next
  split
  · next hopen =>
    refine .of_plain ?_ (by intro g b hg; cases hg)
    cases src with
    | nil => cases hopen
    | cons b rest =>
      simp only [Number.opens] at hopen
      rw [List.takeWhile_cons, if_pos hopen]
      exact Nat.succ_pos _
  · split
    · next n hn => exact .of_plain (comment?_pos hn) (by intro g b hg; cases hg)
    · split
      · next s hs => exact quoted?_fits hs
      · split
        · next k n hn =>
          exact .of_plain (Number.forms_pos (Number.longest?_mem_forms hn))
            (by intro g b hg; cases hg)
        · split
          · next hname =>
            exact .of_plain (Nat.pos_of_ne_zero hname) (fun g b hg => nameLexeme_bracket hg)
          · split
            · next g n hn => exact punctuation?_fits hn
            · exact .of_plain Nat.one_pos (by intro g b hg; cases hg)

/-- The bytes at the front of the text from `pos` on are a slice. -/
theorem take_drop_eq_slice (src : Bytes) (pos n : Nat) :
    (src.drop pos).take n = src.slice pos (pos + n) := by
  rw [Bytes.slice, List.drop_take, Nat.add_sub_cancel_left]

/-- A node inside a string literal lies over the text. -/
theorem inner_laid {src : Bytes} {pos n : Nat} {k : Kind} (hk : isInner k = true)
    (hn : pos + n ≤ src.length) :
    Tree.Laid src ⟨k, none, pos, pos + n, (src.drop pos).take n, []⟩ := by
  refine .node _ hn (Nat.le_add_right pos n) (.inr (take_drop_eq_slice src pos n)) ?_
    (by intro c hc; cases hc)
  refine ⟨?_, fun _ => rfl, ?_, ?_, ?_, ?_⟩
  · intro s b hs hb
    dsimp only at hs
    subst hs
    simp only [isInner, Bool.or_eq_true, decide_eq_true_eq, Kind.sign.injEq, reduceCtorEq,
      or_false] at hk
    rcases hk with rfl | rfl <;> cases hb
  · rintro (rfl | rfl) <;> cases hk
  · rintro (rfl | rfl) <;> cases hk
  · intro hdecl
    rcases Kind.isFuncDecl_iff.mp hdecl with rfl | rfl <;> cases hk
  · intro r hr
    cases hr

/-- The nodes inside a string literal stand in a row. -/
theorem innerTrees_laid {src : Bytes} {pos : Nat} {parts : List (Kind × Nat)}
    (hparts : ∀ p ∈ parts, isInner p.1 = true)
    (htotal : pos + Quoted.total parts ≤ src.length) :
    Row pos (innerTrees pos (src.drop pos) parts) (pos + Quoted.total parts) ∧
      ∀ c ∈ innerTrees pos (src.drop pos) parts, Tree.Laid src c := by
  induction parts generalizing pos with
  | nil => exact ⟨Nat.le_add_right _ _, by intro c hc; cases hc⟩
  | cons p parts ih =>
    obtain ⟨k, n⟩ := p
    rw [Quoted.total_cons] at htotal ⊢
    dsimp only at htotal ⊢
    have hrest : pos + n + Quoted.total parts ≤ src.length := by omega
    obtain ⟨hrow, hlaid⟩ := ih (fun q hq => hparts q (List.mem_cons_of_mem _ hq)) hrest
    simp only [innerTrees, List.drop_drop]
    refine ⟨⟨le_rfl, Nat.le_add_right pos n, hrow.mono le_rfl (by omega)⟩, ?_⟩
    intro c hc
    rcases List.mem_cons.mp hc with rfl | hc
    · exact inner_laid (hparts _ List.mem_cons_self) (by omega)
    · exact hlaid c hc

/-- A token whose shape fits lies over the text. -/
theorem ofShape_laid {src : Bytes} {pos : Nat} {s : Shape} (hpos : pos < src.length)
    (hs : s.Fits (src.drop pos)) : (ofShape pos (src.drop pos) s).Laid src := by
  have hlen : (ofShape pos (src.drop pos) s).bytes.length = min s.length (src.length - pos) := by
    simp only [ofShape, List.length_take, List.length_drop]
  have hstop : (ofShape pos (src.drop pos) s).stop = pos + min s.length (src.length - pos) := by
    rw [stop, hlen]
    rfl
  have htotal := hs.total
  rw [List.length_drop] at htotal
  have hinner : pos + Quoted.total s.parts ≤ src.length := by omega
  obtain ⟨hrow, hlaid⟩ := innerTrees_laid hs.inner hinner
  have hspos := hs.pos
  refine ⟨?_, ?_, ?_, ?_, hlaid, ?_, hs.sign⟩
  · rw [hstop]
    change pos < _
    omega
  · omega
  · rw [hstop]
    change (src.drop pos).take s.length = src.slice pos _
    rw [← take_drop_eq_slice, ← List.length_drop, List.take_eq_take_iff]
    omega
  · exact hrow.mono le_rfl (by omega)
  · intro hplain
    change innerTrees pos (src.drop pos) s.parts = []
    rw [hs.plain hplain]
    rfl

/-- Scanning from an offset on yields tokens that lie over the text. -/
theorem scanFrom_stream {src : Bytes} {fuel pos : Nat} (hpos : pos ≤ src.length) :
    Stream src pos (scanFrom fuel pos (src.drop pos)) := by
  induction fuel generalizing pos with
  | zero => exact hpos
  | succ fuel ih =>
    cases htext : src.drop pos with
    | nil => exact hpos
    | cons b rest =>
      have hlt : pos < src.length := by
        by_contra hge
        rw [List.drop_eq_nil_of_le (by omega)] at htext
        cases htext
      have hrest : ∀ n, rest.drop n = src.drop (pos + (n + 1)) := by
        intro n
        rw [← List.drop_drop, htext, List.drop_succ_cons]
      simp only [scanFrom]
      split
      -- a blank leaves no token; any other token is longer than nothing, so the rest is shorter
      · have h := ih (Nat.succ_le_of_lt hlt)
        rw [← hrest 0, List.drop_zero] at h
        exact h.mono (by omega)
      · have hlaid := ofShape_laid hlt (next_fits (src.drop pos))
        rw [htext] at hlaid
        refine ⟨le_rfl, hlaid, ?_⟩
        have hstart := hlaid.start_lt
        rw [Token.stop] at hstart
        have hbytes : 0 < (ofShape pos (b :: rest) (next (b :: rest))).bytes.length := by omega
        have h := ih hlaid.stop_le
        rw [Token.stop] at h
        rw [hrest, Nat.sub_add_cancel hbytes]
        exact h

/-- The tokens of a text lie over it. -/
theorem scan_stream (src : Bytes) : Stream src 0 (scan src) := by
  unfold scan
  split
  · next hmark =>
    have hlen : 3 ≤ src.length := (List.isPrefixOf_iff_prefix.mp hmark).length_le
    exact (scanFrom_stream hlen).mono (Nat.zero_le 3)
  · exact scanFrom_stream (Nat.zero_le _)

end Token

end CtxThread.Code
