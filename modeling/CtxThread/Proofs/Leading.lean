import CtxThread.Proofs.Code.Separator
import CtxThread.Proofs.Signature

/-!
# Lists that gain a first element

A list of parameters gains the context parameter and a list of arguments the context, right behind
the opening parenthesis. A comma follows if the list has elements. If it has none, nothing does, so
the closing parenthesis has to be on the same line.

## Main definitions

- `Tree.leader`: what a list gains
- `Led`: a list that has gained it

## Main statements

- `exists_led`: every list of a file can gain its leader, and when it is separated then
-/

namespace CtxThread

open Code (Tree Token Kind contextTokens)

/-! ## Leaders -/

namespace Code

/-- What a list in parentheses gains as its first element. -/
def Tree.leader (list : Tree) : String :=
  if list.kind = .parameterList then Naming.contextParameter else Naming.context

namespace Token

theorem leader_cases (list : Tree) :
    list.leader = Naming.contextParameter ∨ list.leader = Naming.context := by
  unfold Tree.leader
  split
  · exact .inl rfl
  · exact .inr rfl

/-- What a list gains as its first element is cut into the same tokens at its place. -/
theorem scan_leader (list : Tree) (pos : Nat) :
    (scan (Bytes.ofString list.leader)).map (shift pos) =
      scanFrom (Bytes.ofString list.leader).length pos (Bytes.ofString list.leader) := by
  have hmark : ∀ text ∈ [Naming.contextParameter, Naming.context],
      byteOrderMark.isPrefixOf (Bytes.ofString text) = false := by
    decide +kernel
  have hplain := hmark list.leader (by simpa using leader_cases list)
  rw [scan, if_neg (by simp [hplain]), ← scanFrom_shift, Nat.zero_add]

/-- What a list gains as its first element is cut off wherever something follows that ends its last
name. -/
theorem scanFrom_leader (list : Tree) {tail : Bytes} (htail : ∀ b ∈ tail.head?, EndsName b)
    (pos : Nat) :
    let text := Bytes.ofString list.leader
    scanFrom (text.length + tail.length) pos (text ++ tail) =
      (scan text).map (shift pos) ++ scanFrom tail.length (pos + text.length) tail := by
  intro text
  obtain ⟨ts, hts⟩ : ∃ ts, ∀ tail : Bytes, (∀ b ∈ tail.head?, EndsName b) →
      scanFrom (text.length + tail.length) pos (text ++ tail) =
        ts ++ scanFrom tail.length (pos + text.length) tail := by
    have hstable : ∀ (n q : Nat) (tail : Bytes),
        scanFrom (tail.length + n) q tail = scanFrom tail.length q tail :=
      fun n q tail => scanFrom_stable (Nat.le_add_right _ _) le_rfl
    rcases leader_cases list with h | h
    · have htext : text = Bytes.ofString Naming.contextParameter := congrArg Bytes.ofString h
      have hlen : text.length = 14 + 5 := by rw [htext]; decide +kernel
      refine ⟨contextTokens pos, fun tail htail => ?_⟩
      rw [hlen, Nat.add_comm, ← Nat.add_assoc, htext, scanFrom_context htail, hstable]
    · have htext : text = Bytes.ofString Naming.context := congrArg Bytes.ofString h
      have hlen : text.length = 2 + 1 := by rw [htext]; decide +kernel
      refine ⟨[⟨.word .plain, pos, text, []⟩], fun tail htail => ?_⟩
      rw [Nat.add_comm, hlen, ← Nat.add_assoc, ← hlen, htext, scanFrom_word (by decide +kernel) htail,
        hstable]
      rfl
  have halone := hts [] fun b hb => by cases hb
  rw [List.append_nil, List.length_nil, Nat.add_zero, scanFrom, List.append_nil] at halone
  rw [hts tail htail, scan_leader, halone]

/-- From an opening parenthesis that has gained an element the tokens are those of the element and
those behind it. -/
theorem scanAt_of_leader {out tail : Bytes} {list : Tree}
    (h : out.drop list.start = 0x28 :: (Bytes.ofString list.leader ++ tail))
    (htail : ∀ b ∈ tail.head?, EndsName b) :
    scanAt out list.start = ⟨.sign .lparen, list.start, [0x28], []⟩ ::
      ((scan (Bytes.ofString list.leader)).map (shift (list.start + 1)) ++
        scanAt out (list.start + 1 + (Bytes.ofString list.leader).length)) := by
  have hbehind : out.drop (list.start + 1 + (Bytes.ofString list.leader).length) = tail := by
    rw [Nat.add_assoc, ← List.drop_drop, h, Nat.add_comm, List.drop_succ_cons, List.drop_left]
  have hrest : scanAt out (list.start + 1 + (Bytes.ofString list.leader).length) =
      scanFrom tail.length (list.start + 1 + (Bytes.ofString list.leader).length) tail := by
    rw [scanAt, ← List.length_drop, hbehind]
  rw [scanAt_of_lparen h, List.length_append, scanFrom_leader list htail, hrest]

end Token

end Code

/-! ## Lists that gain an element -/

/-- The list in parentheses has been given its leader: its tokens come right behind the opening
parenthesis. It is separated from what follows, unless the list is empty and goes over a line end,
and so are the other elements that have been separated before. -/
structure Led (src out : Bytes) (list : Tree) : Prop where
  text : ∃ sep, out = src.take (list.start + 1) ++ Bytes.ofString (list.leader ++ sep) ++
    src.drop (list.start + 1)
  tokens : Token.scanAt out list.start = ⟨.sign .lparen, list.start, [0x28], []⟩ ::
    ((Token.scan (Bytes.ofString list.leader)).map (Token.shift (list.start + 1)) ++
      Token.scanAt out (list.start + 1 + (Bytes.ofString list.leader).length))
  separated : (Token.separatorAt? out
      (list.start + 1 + (Bytes.ofString list.leader).length)).isSome = true ↔
    (list.elements = [] → Bytes.lineFeed ∉ src.slice list.start list.stop)
  others : ∀ item ∈ list.elements,
    Token.separatorAt? out (item.stop + (out.length - src.length)) =
      Token.separatorAt? src item.stop

/-- Every list of parameters or arguments of a file can be given its leader. It is separated from
what follows exactly if the list has elements or stands on one line. -/
theorem exists_led {path : Path} {src : Bytes} {f : SourceFile} {list : Tree}
    (hf : SourceFile.read? path src = some f) (hlist : list ∈ f.root.walk)
    (hk : list.kind = .parameterList ∨ list.kind = .argumentList) :
    ∃ out, Edit.splice f.src [leadingItem f.src list list.elements list.leader] = .ok out ∧
      Led f.src out list := by
  obtain ⟨root, hroot, rfl⟩ := Option.map_eq_some_iff.mp hf
  dsimp only at hlist ⊢
  have hlaid := (Code.parse?_laid hroot).of_mem_walk hlist
  have hopen := hlaid.opens_paren hk
  obtain ⟨hlt, hget⟩ := List.getElem?_eq_some_iff.mp hopen
  obtain ⟨sep, he, hsep⟩ := leadingItem_eq src list list.elements list.leader
  replace hsep := hsep.cases
  let tail := Bytes.ofString sep ++ src.drop (list.start + 1)
  let out := src.take (list.start + 1) ++ Bytes.ofString (list.leader ++ sep) ++
    src.drop (list.start + 1)
  let n := (Bytes.ofString list.leader).length
  have hout : out.drop list.start = 0x28 :: (Bytes.ofString list.leader ++ tail) := by
    simp only [out, tail, Bytes.ofString_append, List.append_assoc]
    rw [List.take_succ_eq_append_getElem hlt, hget, List.append_assoc,
      List.drop_left' (List.length_take_of_le hlt.le)]
    rfl
  have hbehind : out.drop (list.start + 1 + n) = tail := by
    rw [Nat.add_assoc, ← List.drop_drop, hout, Nat.add_comm, List.drop_succ_cons, List.drop_left]
  have hgrown : out.length - src.length = n + (Bytes.ofString sep).length := by
    simp only [out, n, Bytes.ofString_append, List.length_append, List.length_take,
      List.length_drop]
    omega
  have hothers : ∀ item ∈ list.elements,
      Token.separatorAt? out (item.stop + (out.length - src.length)) =
        Token.separatorAt? src item.stop := by
    intro item hitem
    have hstart := Code.start_lt_of_mem_elements hlaid hk hitem
    obtain ⟨k, hk⟩ := Nat.exists_eq_add_of_lt hstart
    refine Token.separatorAt?_shift ?_
    rw [hgrown, show item.stop + (n + (Bytes.ofString sep).length) =
      list.start + 1 + n + ((Bytes.ofString sep).length + k) by omega, ← List.drop_drop, hbehind,
      ← List.drop_drop, List.drop_left, List.drop_drop]
    congr 1
    omega
  refine ⟨out, he ▸ Edit.splice_insertion hlt _, ?_⟩
  suffices h : (∀ b ∈ tail.head?, Token.EndsName b) ∧
      ((Token.separatorAt? out (list.start + 1 + n)).isSome = true ↔
        (list.elements = [] → Bytes.lineFeed ∉ src.slice list.start list.stop)) from
    ⟨⟨sep, rfl⟩, Token.scanAt_of_leader hout h.1, h.2, hothers⟩
  rcases hsep with ⟨rfl, hnone⟩ | ⟨hcomma, hsome⟩
  · -- an empty list
    obtain ⟨gap, rp, rest, hscan, hgap, hrp, hfeed⟩ :=
      Code.exists_scanAt_of_empty hroot hlist hk hnone hopen
    have hmoved := @Token.separatorAt?_shift src out (list.start + 1) n hbehind
    have hnewline : ∀ g ∈ gap, g.lexeme = .newline → Bytes.lineFeed ∈ g.bytes := by
      intro g hg
      have hmem : g ∈ Token.scanAt src (list.start + 1) := by
        rw [hscan]
        exact List.mem_append_left _ hg
      exact Token.lineFeed_mem_of_newline hmem
    have hnext : Code.Rule.nextLexeme? (Token.scanAt src (list.start + 1)) =
        some (.sign .rparen) := by
      rw [hscan, Token.nextLexeme?_gap hgap (by simp [hrp]) (by simp [hrp]), hrp]
    refine ⟨Token.endsName_of_nextLexeme? hnext, ?_⟩
    rw [hmoved, Token.separatorAt?, hscan, Token.separator?_gap hgap hnewline hrp, hfeed]
    simp [hnone]
  · -- a comma comes next
    obtain ⟨rest, hrest⟩ : ∃ rest, tail = 0x2C :: rest := by
      rcases hcomma with rfl | rfl <;> exact ⟨_, rfl⟩
    refine ⟨?_, ?_⟩
    · rw [hrest]
      exact fun b hb => Option.some.inj hb ▸ by decide
    · rw [Token.separatorAt?_of_comma (hbehind.trans hrest)]
      simp [hsome]

/-- Lists over several lines: with parameters and arguments on lines of their own, trailing commas
and comments, and a list with a comment only. -/
def layeredLists : Bytes :=
  Bytes.ofString ("package a\n\nfunc f(\n\tn int, // many\n\t/* last */ s string,\n) \x7b\n" ++
    "\tg(/* none */)\n\tf(n, // first\n\t\ts)\n\x7d\n")

/-- Their elements stay separated. -/
theorem separated_layeredLists :
    ∃ f lists, SourceFile.read? ⟨"", ["a.go"]⟩ layeredLists = some f ∧
      f.root.walk.filter (fun t => t.kind = .parameterList ∨ t.kind = .argumentList) = lists ∧
      lists.map (fun list => list.elements.length) = [2, 0, 2] ∧
      ∀ list ∈ lists, ∃ out,
        Edit.splice f.src [leadingItem f.src list list.elements list.leader] = .ok out ∧
        Led f.src out list ∧ (Token.separatorAt? out
          (list.start + 1 + (Bytes.ofString list.leader).length)).isSome = true ∧
        ∀ item ∈ list.elements,
          (Token.separatorAt? out (item.stop + (out.length - f.src.length))).isSome = true := by
  have h : ((SourceFile.read? ⟨"", ["a.go"]⟩ layeredLists).map fun f =>
      let lists := f.root.walk.filter fun t => t.kind = .parameterList ∨ t.kind = .argumentList
      decide (lists.map (fun list => list.elements.length) = [2, 0, 2] ∧
        ∀ list ∈ lists, (list.elements = [] → Bytes.lineFeed ∉ f.src.slice list.start list.stop) ∧
          ∀ item ∈ list.elements, (Token.separatorAt? f.src item.stop).isSome = true)) =
        some true := by
    decide +kernel
  obtain ⟨f, hf, h⟩ := Option.map_eq_some_iff.mp h
  obtain ⟨hlengths, hlists⟩ := of_decide_eq_true h
  refine ⟨f, _, hf, rfl, hlengths, fun list hlist => ?_⟩
  obtain ⟨hmem, hk⟩ := List.mem_filter.mp hlist
  obtain ⟨hline, hitems⟩ := hlists list hlist
  obtain ⟨out, hout, hled⟩ := exists_led hf hmem (of_decide_eq_true hk)
  refine ⟨out, hout, hled, hled.separated.mpr hline, fun item hitem => ?_⟩
  rw [hled.others item hitem]
  exact hitems item hitem

/-- Empty lists whose parentheses stand on different lines, one of them with a comment. -/
def openLists : Bytes :=
  Bytes.ofString ("package a\n\nfunc main() \x7b\n\tf(\n\t)\n\x7d\n\n" ++
    "func f( // nothing\n) \x7b\n\x7d\n")

/-- What these lists gain is followed by a line end. -/
theorem not_separated_openLists :
    ∃ f lists, SourceFile.read? ⟨"", ["a.go"]⟩ openLists = some f ∧
      f.root.walk.filter (fun t => (t.kind = .parameterList ∨ t.kind = .argumentList) ∧
        Bytes.lineFeed ∈ f.src.slice t.start t.stop) = lists ∧
      lists.map Tree.kind = [.argumentList, .parameterList] ∧
      ∀ list ∈ lists, list.elements = [] ∧ ∃ out,
        Edit.splice f.src [leadingItem f.src list list.elements list.leader] = .ok out ∧
        Token.separatorAt? out (list.start + 1 + (Bytes.ofString list.leader).length) = none := by
  have h : ((SourceFile.read? ⟨"", ["a.go"]⟩ openLists).map fun f =>
      let lists := f.root.walk.filter fun t =>
        (t.kind = .parameterList ∨ t.kind = .argumentList) ∧
          Bytes.lineFeed ∈ f.src.slice t.start t.stop
      decide (lists.map Tree.kind = [.argumentList, .parameterList] ∧
        ∀ list ∈ lists, list.elements = [] ∧
          ((Edit.splice f.src [leadingItem f.src list list.elements list.leader]).toOption.map
            fun out => Token.separatorAt? out
              (list.start + 1 + (Bytes.ofString list.leader).length)) = some none)) =
        some true := by
    decide +kernel
  obtain ⟨f, hf, h⟩ := Option.map_eq_some_iff.mp h
  obtain ⟨hkinds, hlists⟩ := of_decide_eq_true h
  refine ⟨f, _, hf, rfl, hkinds, fun list hlist => ?_⟩
  obtain ⟨hnone, hseparator⟩ := hlists list hlist
  obtain ⟨out, hout, hnothing⟩ := Option.map_eq_some_iff.mp hseparator
  refine ⟨hnone, out, ?_, hnothing⟩
  cases hsplice : Edit.splice f.src [leadingItem f.src list list.elements list.leader] with
  | error o => rw [hsplice] at hout; cases hout
  | ok out' =>
    rw [hsplice] at hout
    exact congrArg Except.ok (Option.some.inj hout)

end CtxThread
