import CtxThread.Proofs.Code.Parameters
import CtxThread.Proofs.Code.Parens

/-!
# Separators

A line end closes a statement behind a name, so between an element of a list and the line end
behind it there has to be a comma, unless the list ends before.

## Main definitions

- `Token.separator?`: the comma or parenthesis that comes next, if no line end comes before
- `Token.separatorAt?`: the same from an offset of a text on

## Main statements

- `Token.separatorAt?_shift`: texts that go on alike have the same separator there
- `Token.separator?_gap`: whether a parenthesis separates depends on the line ends before it
- `exists_scanAt_of_empty`: what stands in an empty list
-/

namespace CtxThread.Code

namespace Token

/-- What separates the element in front of the tokens from the next, where a line end closes it
otherwise: a comma, or the end of the list. Comments within the line are passed over. -/
def separator? : List Token → Option Sign
  | [] => none
  | t :: ts =>
    if t.lexeme = .comment ∧ Bytes.lineFeed ∉ t.bytes then separator? ts
    else if t.lexeme = .sign .comma then some .comma
    else if t.lexeme = .sign .rparen then some .rparen
    else none

/-- What separates the element that ends at the offset `pos` of a text from the next. -/
def separatorAt? (src : Bytes) (pos : Nat) : Option Sign := separator? (scanAt src pos)

theorem separator?_shift (d : Nat) (ts : List Token) :
    separator? (ts.map (shift d)) = separator? ts := by
  induction ts with
  | nil => rfl
  | cons t ts ih =>
    rw [List.map_cons, separator?, separator?, ih]
    rfl

/-- Texts that go on alike are cut alike. -/
theorem scanAt_shift {src out : Bytes} {pos d : Nat} (h : out.drop (pos + d) = src.drop pos) :
    scanAt out (pos + d) = (scanAt src pos).map (shift d) := by
  rw [scanAt, scanAt, ← List.length_drop, ← List.length_drop, h, scanFrom_shift]

theorem separatorAt?_shift {src out : Bytes} {pos d : Nat}
    (h : out.drop (pos + d) = src.drop pos) :
    separatorAt? out (pos + d) = separatorAt? src pos := by
  rw [separatorAt?, scanAt_shift h, separator?_shift, separatorAt?]

theorem separatorAt?_of_comma {src tail : Bytes} {pos : Nat}
    (h : src.drop pos = 0x2C :: tail) : separatorAt? src pos = some .comma := by
  have hlen : src.length - pos = tail.length + 1 := by
    rw [← List.length_drop, h, List.length_cons]
  have hscan := @scanFrom_token (.sign .comma) 0x2C [] tail (by decide) (next_comma tail)
    tail.length pos
  rw [separatorAt?, scanAt, h, hlen]
  exact congrArg separator? hscan

/-! ## Line ends in front of a parenthesis -/

/-- A line end is read where one stands. -/
theorem head?_of_newline {src : Bytes} (h : (next src).lexeme = .newline) :
    src.head? = some Bytes.lineFeed := by
  revert h
  unfold next
  split
  · next hopens =>
    intro _
    cases src with
    | nil => cases hopens
    | cons b rest => exact congrArg some (of_decide_eq_true hopens)
  · split
    · exact fun h => nomatch h
    · split
      · next s hs =>
        intro h
        obtain ⟨k, hk⟩ := exists_literal_of_quoted? hs
        rw [hk] at h
        cases h
      · split
        · exact fun h => nomatch h
        · split
          · exact fun h => absurd h (nameLexeme_ne _).2.1
          · split
            · exact fun h => nomatch h
            · exact fun h => nomatch h

theorem lineFeed_mem_of_newline {fuel pos : Nat} {src : Bytes} {tok : Token}
    (h : tok ∈ scanFrom fuel pos src) (hl : tok.lexeme = .newline) :
    Bytes.lineFeed ∈ tok.bytes := by
  obtain ⟨p, b, rest, rfl, -⟩ := scanFrom_mem h
  obtain rfl : b = Bytes.lineFeed := Option.some.inj (head?_of_newline hl)
  obtain ⟨n, hn⟩ := Nat.exists_eq_succ_of_ne_zero (next_fits (Bytes.lineFeed :: rest)).pos.ne'
  change Bytes.lineFeed ∈ (Bytes.lineFeed :: rest).take (next (Bytes.lineFeed :: rest)).length
  rw [hn, List.take_succ_cons]
  exact List.mem_cons_self

theorem le_start_of_mem {fuel pos : Nat} {src : Bytes} {tok : Token}
    (h : tok ∈ scanFrom fuel pos src) : pos ≤ tok.start := by
  fun_induction scanFrom fuel pos src with
  | case1 | case2 => cases h
  | case3 _ _ _ _ _ ih => exact (Nat.le_succ _).trans (ih h)
  | case4 fuel pos b rest hblank t ih =>
    rcases List.mem_cons.mp h with rfl | h
    · exact le_rfl
    · exact (Nat.le_add_right _ _).trans (ih h)

/-- A line end in front of a token is one of the tokens before it or stands inside one. -/
theorem lineFeed_mem_take_iff {fuel pos : Nat} {src : Bytes} {before rest : List Token}
    {tok : Token} (h : scanFrom fuel pos src = before ++ tok :: rest) :
    Bytes.lineFeed ∈ src.take (tok.start - pos) ↔ ∃ t ∈ before, Bytes.lineFeed ∈ t.bytes := by
  induction fuel generalizing pos src before with
  | zero => simp [scanFrom] at h
  | succ fuel ih =>
    cases src with
    | nil => simp [scanFrom] at h
    | cons b src =>
      rw [scanFrom] at h
      split at h
      · next hblank =>
        have hb : b ≠ Bytes.lineFeed := of_decide_eq_true (Bool.and_eq_true_iff.mp hblank).2
        have hlt : pos + 1 ≤ tok.start := le_start_of_mem (by rw [h]; simp)
        rw [show tok.start - pos = (tok.start - (pos + 1)) + 1 by omega, List.take_succ_cons,
          List.mem_cons, or_iff_right hb.symm]
        exact ih h
      · dsimp only at h
        cases before with
        | nil =>
          obtain ⟨rfl, -⟩ := List.cons.inj h
          simp [ofShape]
        | cons t before =>
          obtain ⟨ht, h⟩ := List.cons.inj h
          have hbytes : t.bytes = (b :: src).take t.bytes.length := by
            rw [← ht]
            exact List.prefix_iff_eq_take.mp (List.take_prefix _ _)
          rw [ht] at h
          obtain ⟨n, hn⟩ := Nat.exists_eq_add_of_le (le_start_of_mem (by rw [h]; simp) :
            pos + t.bytes.length ≤ tok.start)
          have hpos : 0 < t.bytes.length := by
            have := (next_fits (b :: src)).pos
            rw [← ht, ofShape, List.length_take, List.length_cons]
            omega
          have hrest : (b :: src).drop t.bytes.length = src.drop (t.bytes.length - 1) := by
            rw [List.drop_cons hpos]
          have hmore := ih h
          rw [show tok.start - (pos + t.bytes.length) = n by omega] at hmore
          rw [show tok.start - pos = t.bytes.length + n by omega, List.take_add, ← hbytes,
            List.mem_append, hrest, hmore, List.exists_mem_cons_iff]

/-- Behind comments and line ends comes what stands there. -/
theorem nextLexeme?_gap {gap rest : List Token} {tok : Token} (hgap : ∀ g ∈ gap, g.IsGap)
    (hcomment : tok.lexeme ≠ .comment) (hnewline : tok.lexeme ≠ .newline) :
    Rule.nextLexeme? (gap ++ tok :: rest) = some tok.lexeme := by
  induction gap with
  | nil => exact Rule.nextLexeme?_cons hcomment hnewline rest
  | cons g gap ih =>
    obtain ⟨hg, hgap⟩ := List.forall_mem_cons.mp hgap
    rw [← ih hgap, List.cons_append, Rule.nextLexeme?, Rule.nextLexeme?, Rule.skipBlanks]
    rcases hg with hg | hg
    · rw [if_pos hg, Rule.skipBlanks_rest]
    · rw [if_neg (by simp [hg]), if_pos hg, Rule.skipBlanks_rest]

/-- In front of a closing parenthesis on the same line nothing closes an element. -/
theorem separator?_gap {gap rest : List Token} {rp : Token} (hgap : ∀ g ∈ gap, g.IsGap)
    (hnewline : ∀ g ∈ gap, g.lexeme = .newline → Bytes.lineFeed ∈ g.bytes)
    (hrp : rp.lexeme = .sign .rparen) :
    (separator? (gap ++ rp :: rest)).isSome = true ↔ ∀ g ∈ gap, Bytes.lineFeed ∉ g.bytes := by
  induction gap with
  | nil => simp [separator?, hrp]
  | cons g gap ih =>
    obtain ⟨hg, hgap⟩ := List.forall_mem_cons.mp hgap
    obtain ⟨hn, hnewline⟩ := List.forall_mem_cons.mp hnewline
    rw [List.cons_append, separator?, List.forall_mem_cons, ← ih hgap hnewline]
    by_cases hfeed : Bytes.lineFeed ∈ g.bytes
    · have hsep : g.lexeme ≠ .sign .comma ∧ g.lexeme ≠ .sign .rparen := by
        rcases hg with hg | hg <;> simp [hg]
      simp [hfeed, hsep]
    · have hcomment : g.lexeme = .comment := hg.resolve_right fun hl => hfeed (hn hl)
      simp [hfeed, hcomment]

end Token

/-! ## Empty lists -/

/-- Behind the opening parenthesis of an empty list come comments and line ends, then the closing
one; the list goes over a line end if one of those holds one. -/
theorem exists_scanAt_of_empty {src : Bytes} {root list : Tree}
    (h : parse? src = some root) (hlist : list ∈ root.walk)
    (hk : list.kind = .parameterList ∨ list.kind = .argumentList) (hnone : list.elements = [])
    (hopen : src[list.start]? = some 0x28) :
    ∃ gap rp rest, Token.scanAt src (list.start + 1) = gap ++ rp :: rest ∧
      (∀ g ∈ gap, g.IsGap) ∧ rp.lexeme = .sign .rparen ∧
      (Bytes.lineFeed ∈ src.slice list.start list.stop ↔
        ∃ g ∈ gap, Bytes.lineFeed ∈ g.bytes) := by
  rcases filled_of_mem_walk h hlist hk with ⟨c, hc, helement⟩ |
    ⟨lp, gap, rp, rest, hsuffix, -, hrp, hgap, hstart, hstop⟩
  · have hmem := Tree.mem_elements.mpr ⟨hc, helement⟩
    rw [hnone] at hmem
    cases hmem
  · obtain ⟨hlt, hget⟩ := List.getElem?_eq_some_iff.mp hopen
    have hdrop : src.drop list.start = 0x28 :: src.drop (list.start + 1) := by
      rw [List.drop_eq_getElem_cons hlt, hget]
    have hscan := Token.scan_suffix hsuffix
    rw [← hstart, Token.scanAt_of_lparen hdrop, List.length_drop] at hscan
    obtain ⟨-, hbehind⟩ := List.cons.inj hscan
    have hmem : rp ∈ Token.scan src := hsuffix.subset (by simp)
    have hlaid := (Token.scan_stream src).laid_of_mem hmem
    have hline : Bytes.lineFeed ∉ src.slice rp.start rp.stop := by
      rw [← hlaid.bytes]
      exact (Token.scan_whole hmem).line (by rw [hrp]; rfl)
    have hle : list.start + 1 ≤ rp.start := Token.le_start_of_mem (by rw [← hbehind]; simp)
    have hfirst : src.slice list.start (list.start + 1) = [0x28] := by
      rw [Bytes.slice_succ le_rfl hopen, Bytes.slice_self, List.nil_append]
    have hinside : src.slice (list.start + 1) rp.start =
        (src.drop (list.start + 1)).take (rp.start - (list.start + 1)) := List.drop_take
    refine ⟨gap, rp, rest, hbehind.symm, hgap, hrp, ?_⟩
    rw [hstop, Bytes.slice_append (Nat.le_succ _) (hle.trans hlaid.start_lt.le) hlaid.stop_le,
      Bytes.slice_append hle hlaid.start_lt.le hlaid.stop_le, hfirst, hinside, List.mem_append,
      List.mem_append, or_iff_left hline, Token.lineFeed_mem_take_iff hbehind.symm]
    exact or_iff_right (by decide)


end CtxThread.Code
