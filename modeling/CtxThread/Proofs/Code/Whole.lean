import CtxThread.Proofs.Code.Scan
import CtxThread.Proofs.Text.Utf8

/-!
# What tokens are made of

A token is not empty and holds its own parts only. The bytes of a comment or a literal open with
something other than a separator, and those of a name or a sign hold no line end.

## Main definitions

- `Token.Whole`: such a token

## Main statements

- `Token.scan_whole`: the tokens of a text are whole
-/

namespace CtxThread.Code

/-- The text does not open with a separator. -/
def Bytes.OpensSolid (bs : Bytes) : Prop := ∃ b, bs.head? = some b ∧ Bytes.isSeparator b = false

/-- What names and signs are read as. -/
def Lexeme.isPart : Lexeme → Bool
  | .sign _ | .word _ => true
  | _ => false

/-- A token that is not empty and holds its parts only. A comment or a literal does not open with
a separator, and a name or a sign goes over no line end. -/
structure Token.Whole (t : Token) : Prop where
  start_lt : t.start < t.stop
  leaf : ∀ c ∈ t.inner, c.children = [] ∧ isInner c.kind = true
  solid : t.lexeme = .comment ∨ (∃ k, t.lexeme = .literal k) → Bytes.OpensSolid t.bytes
  line : t.lexeme.isPart = true → Bytes.lineFeed ∉ t.bytes

theorem Stream.laid_of_mem {src : Bytes} {lo : Nat} {ts : List Token} (h : Stream src lo ts)
    {t : Token} (ht : t ∈ ts) : t.Laid src := by
  induction ts generalizing lo with
  | nil => cases ht
  | cons u ts ih =>
    rcases List.mem_cons.mp ht with rfl | ht
    · exact h.2.1
    · exact ih h.2.2 ht

namespace Number

/-- A number starts with a digit or a point. -/
theorem longest?_eq_none {b : UInt8} (hdigit : isDecimal b = false) (hpoint : b ≠ 0x2E)
    (rest : Bytes) : longest? (b :: rest) = none := by
  have hzero : b ≠ 0x30 := by
    rintro rfl
    cases hdigit
  have hhex : hexFloats (b :: rest) = [] := by
    cases rest with
    | nil => rfl
    | cons c rest => simp [hexFloats, hzero]
  have hforms : forms (b :: rest) = [] := by
    simp [forms, integers, decimalFloats, digits, opens, point, hdigit, hpoint, hzero, hhex]
  rw [longest?, hforms]
  rfl

end Number

namespace Token

/-- A token is read off the text from its first byte on, which is no blank within a line. -/
theorem scanFrom_mem {fuel pos : Nat} {src : Bytes} {tok : Token}
    (h : tok ∈ scanFrom fuel pos src) :
    ∃ p b rest, tok = ofShape p (b :: rest) (next (b :: rest)) ∧
      (Bytes.isBlank b = true → b = Bytes.lineFeed) := by
  fun_induction scanFrom fuel pos src with
  | case1 | case2 => cases h
  | case3 _ _ _ _ _ ih => exact ih h
  | case4 fuel pos b rest hblank t ih =>
    rcases List.mem_cons.mp h with rfl | h
    · exact ⟨pos, b, rest, rfl, fun hb => by simpa [hb] using hblank⟩
    · exact ih h

/-! ## Comments and literals -/

theorem next_lineFeed (rest : Bytes) : (next (Bytes.lineFeed :: rest)).lexeme = .newline := rfl

theorem isPart_nameLexeme (name : Bytes) : (nameLexeme name).isPart = true := by
  simp only [nameLexeme]
  split <;> rfl

/-- A byte that opens neither a line end nor a comment, a literal or a number. -/
def isFrank (b : UInt8) : Bool :=
  b ≠ Bytes.lineFeed && b ≠ 0x2F && b ≠ Quoted.doubleQuote && b ≠ Quoted.backQuote &&
    b ≠ Quoted.singleQuote && b ≠ 0x2E && !Number.isDecimal b

/-- A text that opens with such a byte opens with a name or a sign, or with a stray byte. -/
theorem next_of_isFrank {b : UInt8} (hb : isFrank b = true) (rest : Bytes) :
    next (b :: rest) =
      if nameLength (b :: rest) ≠ 0 then
        ⟨nameLexeme ((b :: rest).take (nameLength (b :: rest))), nameLength (b :: rest), []⟩
      else if let some (s, n) := punctuation? (b :: rest) then ⟨.sign s, n, []⟩
      else ⟨.stray, 1, []⟩ := by
  simp only [isFrank, ne_eq, Bool.and_eq_true, decide_eq_true_eq, Bool.not_eq_true'] at hb
  obtain ⟨⟨⟨⟨⟨⟨hfeed, hslash⟩, hdouble⟩, hback⟩, hsingle⟩, hpoint⟩, hdigit⟩ := hb
  have hcomment : comment? (b :: rest) = none := by
    cases rest with
    | nil => rfl
    | cons c rest => simp [comment?, hslash]
  have hquoted : quoted? (b :: rest) = none := by
    simp [quoted?, hdouble, hback, hsingle]
  have hopens : Number.opens (· = Bytes.lineFeed) (b :: rest) = false := decide_eq_false hfeed
  rw [next, hopens, hcomment, hquoted, Number.longest?_eq_none hdigit hpoint]
  rfl

/-- A semicolon opens neither a comment nor a literal. -/
theorem next_semicolon (rest : Bytes) :
    (next (0x3B :: rest)).lexeme.isPart = true ∨ (next (0x3B :: rest)).lexeme = .stray := by
  rw [next_of_isFrank (by decide)]
  split
  · exact .inl (isPart_nameLexeme ((0x3B :: rest).take (nameLength (0x3B :: rest))))
  · split
    · exact .inl rfl
    · exact .inr rfl

theorem innerTrees_leaf {pos : Nat} {src : Bytes} {parts : List (Kind × Nat)} {c : Tree}
    (hc : c ∈ innerTrees pos src parts) : c.children = [] ∧ ∃ p ∈ parts, c.kind = p.1 := by
  induction parts generalizing pos src with
  | nil => cases hc
  | cons p parts ih =>
    rcases List.mem_cons.mp hc with rfl | hc
    · exact ⟨rfl, p, List.mem_cons_self, rfl⟩
    · obtain ⟨hleaf, q, hq, hk⟩ := ih hc
      exact ⟨hleaf, q, List.mem_cons_of_mem p hq, hk⟩

/-! ## Names and signs -/

/-- Characters other than a line end are written without one. -/
theorem lineFeed_notMem_spanChars {p : Char → Bool} (hp : p '\n' = false) {skip : Nat}
    {src : Bytes} (hskip : Bytes.lineFeed ∉ src.take skip) :
    Bytes.lineFeed ∉ src.take (spanChars p skip src) := by
  fun_induction spanChars p skip src with
  | case1 => simp
  | case2 skip b rest ih =>
    rw [List.take_succ_cons, List.mem_cons, not_or] at hskip
    rw [Nat.add_comm, List.take_succ_cons, List.mem_cons, not_or]
    exact ⟨hskip.1, ih hskip.2⟩
  | case3 b rest o c hc hpc ih =>
    rw [Nat.add_comm, List.take_succ_cons, List.mem_cons, not_or]
    constructor
    · rintro rfl
      have hchar : (Utf8.first Bytes.lineFeed rest).char = some '\n' := rfl
      rw [hc, Option.some.injEq] at hchar
      rw [hchar, hp] at hpc
      cases hpc
    · refine ih fun hmem => ?_
      exact absurd (Utf8.le_of_mem_followers hc _ hmem) (by decide)
  | case4 | case5 => simp

theorem lineFeed_notMem_name (src : Bytes) : Bytes.lineFeed ∉ src.take (nameLength src) := by
  have hpart : isNamePart '\n' = false := by decide +kernel
  unfold nameLength
  split
  · simp
  · split
    · split
      · exact lineFeed_notMem_spanChars hpart (by simp)
      · simp
    · simp

theorem lineFeed_notMem_punctuation {src : Bytes} {g : Sign} {n : Nat}
    (h : punctuation? src = some (g, n)) : Bytes.lineFeed ∉ src.take n := by
  have hall : ∀ e ∈ Sign.punctuation, Bytes.lineFeed ∉ Bytes.ofString e.1 := by decide +kernel
  obtain ⟨e, he, hen⟩ := Option.map_eq_some_iff.mp h
  obtain rfl : (Bytes.ofString e.1).length = n := congrArg Prod.snd hen
  have hprefix := List.find?_some he
  obtain ⟨rest, hrest⟩ := List.isPrefixOf_iff_prefix.mp hprefix
  rw [← hrest, List.take_left]
  exact hall e (List.mem_of_find?_eq_some he)

/-- What opens with a quotation mark is a literal. -/
theorem exists_literal_of_quoted? {src : Bytes} {s : Shape} (h : quoted? src = some s) :
    ∃ k, s.lexeme = .literal k := by
  unfold quoted? at h
  split at h
  · cases h
  · split at h
    · obtain ⟨ps, _, rfl⟩ := Option.map_eq_some_iff.mp h
      exact ⟨_, rfl⟩
    · split at h
      · obtain ⟨n, _, rfl⟩ := Option.map_eq_some_iff.mp h
        exact ⟨_, rfl⟩
      · split at h
        · obtain ⟨n, _, rfl⟩ := Option.map_eq_some_iff.mp h
          exact ⟨_, rfl⟩
        · cases h

theorem isPart_quoted? {src : Bytes} {s : Shape} (h : quoted? src = some s) :
    s.lexeme.isPart = false := by
  obtain ⟨k, hk⟩ := exists_literal_of_quoted? h
  rw [hk]
  rfl

/-- A name or a sign goes over no line end. -/
theorem lineFeed_notMem_next (src : Bytes) (h : (next src).lexeme.isPart = true) :
    Bytes.lineFeed ∉ src.take (next src).length := by
  revert h
  unfold next
  split
  · exact fun h => nomatch h
  · split
    · exact fun h => nomatch h
    · split
      · next s hs =>
        intro h
        rw [isPart_quoted? hs] at h
        cases h
      · split
        · exact fun h => nomatch h
        · split
          · exact fun _ => lineFeed_notMem_name src
          · split
            · next hn => exact fun _ => lineFeed_notMem_punctuation hn
            · exact fun h => nomatch h

/-- The tokens of a text are whole. -/
theorem scan_whole {src : Bytes} {tok : Token} (h : tok ∈ scan src) : tok.Whole := by
  obtain ⟨p, b, rest, hshape, hblank⟩ : ∃ p b rest,
      tok = ofShape p (b :: rest) (next (b :: rest)) ∧
        (Bytes.isBlank b = true → b = Bytes.lineFeed) := by
    unfold scan at h
    split at h <;> exact scanFrom_mem h
  have hfits := next_fits (b :: rest)
  refine ⟨((scan_stream src).laid_of_mem h).start_lt, ?_, ?_, ?_⟩
  · intro c hc
    rw [hshape] at hc
    obtain ⟨hleaf, q, hq, hk⟩ := innerTrees_leaf hc
    exact ⟨hleaf, hk ▸ hfits.inner q hq⟩
  · intro hlexeme
    rw [hshape] at hlexeme ⊢
    change (next (b :: rest)).lexeme = _ ∨ ∃ k, (next (b :: rest)).lexeme = _ at hlexeme
    refine ⟨b, ?_, ?_⟩
    · change ((b :: rest).take (next (b :: rest)).length).head? = some b
      have hpos := hfits.pos
      rw [List.head?_take, if_neg (by omega)]
      rfl
    · by_contra hsep
      simp only [Bytes.isSeparator, Bool.not_eq_false, Bool.or_eq_true, decide_eq_true_eq] at hsep
      rcases hsep with hsep | rfl
      · rw [hblank hsep, next_lineFeed] at hlexeme
        simp at hlexeme
      · rcases next_semicolon rest with hpart | hstray
        · rcases hlexeme with hlexeme | ⟨k, hlexeme⟩ <;> rw [hlexeme] at hpart <;> cases hpart
        · rw [hstray] at hlexeme
          simp at hlexeme
  · intro hpart
    rw [hshape] at hpart ⊢
    exact lineFeed_notMem_next (b :: rest) hpart

end Token

end CtxThread.Code
