import CtxThread.Proofs.Import.Weave
import CtxThread.Proofs.Leading

/-!
# Lists that gain a first element, and imports

Every text that is put into a file is cut into the same atoms wherever it stands, and nothing that
edits are planned for stands in an import declaration. So a list of parameters or arguments that
gains a first element leaves the imports alone.

## Main definitions

- `Code.Token.cutsInto?`: what a text is cut into in front of a byte
- `Import.isImporting`: the nodes that import declarations are built of

## Main statements

- `Import.readTo_of_mem_walk`: in no other node an import is being read
- `Edit.fine_leadingItem`: first elements leave the imports alone
-/

namespace CtxThread

open Code (Tree Token Kind Atom)
open Code.Token (Cuts Seam EndsName commentClose? next)
open Import (Mode Written Plain Grows ReadTo addedAtoms)

/-! ## New texts -/

namespace Code.Token

/-- What the text is cut into in front of the byte `c`, where that may go on in any way. -/
def cutsInto? (x : Bytes) (c : UInt8) : Option (List Atom) :=
  let ts := scanFrom (x.length + 1) 0 (x ++ [c])
  if ts.all (fun t => t.lexeme ≠ .stray &&
      (t.lexeme = .newline || x.length ≤ t.start || t.stop ≤ x.length)) &&
    (!isRunning c && c < 0x80 && !Number.isBase c && c ≠ 0x2A && !x.contains 0x2A)
  then some (atoms (ts.filter (·.start < x.length))) else none

theorem cuts_of_cutsInto? {x : Bytes} {c : UInt8} {us : List Atom} (h : cutsInto? x c = some us)
    (b : Bytes) : Cuts (c :: b) x us := by
  simp only [cutsInto?, Option.ite_none_right_eq_some, Option.some.injEq, Bool.and_eq_true,
    List.all_eq_true, Bool.or_eq_true, decide_eq_true_eq, Bool.not_eq_true', List.contains_eq_mem,
    decide_eq_false_iff_not] at h
  obtain ⟨⟨htokens, ⟨⟨⟨hrun, hascii⟩, hbase⟩, hne⟩, hstar⟩, rfl⟩ := h
  have hlen : (x ++ [c]).length = x.length + 1 := by simp
  have hcuts : Cuts ((x ++ [c]).drop x.length) ((x ++ [c]).slice 0 x.length)
      (atoms ((scanFrom (x.length + 1) 0 (x ++ [c])).filter fun t => t.start < x.length)) := by
    refine cuts_of_scanFrom hlen.le (Nat.zero_le _) (by omega) (fun t ht => (htokens t ht).1)
      fun t ht hl => ?_
    rcases (htokens t ht).2 with (h | h) | h
    · exact absurd h hl
    · exact .inl h
    · exact .inr h
  rw [List.drop_left, Bytes.slice, List.take_left, List.drop_zero] at hcuts
  refine hcuts.seam ⟨?_, .inl rfl, fun d hd => ?_⟩ fun hmem => absurd hmem hstar
  · rw [stretch_cons_of_neg hrun, stretch_cons_of_neg hrun]
  · rw [← Option.some.inj hd]
    exact ⟨hascii, hbase, hne⟩

/-- A word that ends with the text or is followed by the end of a name. -/
theorem cuts_word {x b : Bytes} (hx : isWord x = true) (hb : ∀ c ∈ b.head?, EndsName c) :
    Cuts b x [(.word .plain, x)] := by
  cases x with
  | nil => cases hx
  | cons d x =>
    have hblank : Bytes.isBlank d = false := by
      simp only [isWord, Bool.and_eq_true, Bool.not_eq_true'] at hx
      exact hx.1.1.1.2
    have hcuts := Cuts.cons (x := d :: x) (a := []) (b := b)
      (s := ⟨.word .plain, (d :: x).length, []⟩)
      (fun c hc => by rw [← Option.some.inj hc]; exact hblank) (next_word hx hb) rfl (by simp) .done
    rwa [List.append_nil] at hcuts

/-- A sign of one byte. -/
theorem cuts_sign {c : UInt8} {s : Sign} {b : Bytes} (hblank : Bytes.isBlank c = false)
    (h : next (c :: b) = ⟨.sign s, 1, []⟩) : ∃ us, Cuts b [c] us ∧ ∀ w ∈ us, w.1 = .sign s := by
  refine ⟨atomOf (.sign s) [c] ++ [], ?_, fun w hw => ?_⟩
  · refine Cuts.cons (x := [c]) (a := []) (s := ⟨.sign s, 1, []⟩) (fun d hd => ?_) h rfl (by simp)
      .done
    rw [← Option.some.inj hd]
    exact hblank
  · rw [List.append_nil, atomOf] at hw
    split at hw
    · cases hw
    · rw [List.mem_singleton.mp hw]

theorem cuts_blanks {x : Bytes} (hx : ∀ c ∈ x, Bytes.isBlank c = true) (b : Bytes) :
    Cuts b x [] := by
  have := Cuts.blanks (b := b) hx .done
  rwa [List.append_nil] at this

end Code.Token

namespace Edit

open Code.Token

/-- The first parameter and the first argument that lists gain. -/
theorem cuts_leader {text : String} (h : text ∈ [Naming.contextParameter, Naming.context])
    {b : Bytes} (hb : ∀ c ∈ b.head?, EndsName c) :
    ∃ us, Cuts b (Bytes.ofString text) us ∧ Plain us := by
  have hword : ∀ {x b : Bytes}, isWord x = true → (∀ c ∈ b.head?, EndsName c) →
      Cuts b x [(.word .plain, x)] := cuts_word
  simp only [List.mem_cons, List.not_mem_nil, or_false] at h
  rcases h with rfl | rfl
  · have htext : Bytes.ofString Naming.contextParameter = Bytes.ofString "ctx" ++
        ([0x20] ++ (Bytes.ofString "context" ++ ([0x2E] ++ Bytes.ofString "Context"))) := by
      decide +kernel
    obtain ⟨us, hus, hdot⟩ := cuts_sign (b := Bytes.ofString "Context" ++ b) (c := 0x2E) rfl
      (next_dot _)
    have hctx := hword (x := Bytes.ofString "ctx") (b := [0x20] ++ (Bytes.ofString "context" ++
        ([0x2E] ++ Bytes.ofString "Context")) ++ b) (by decide +kernel)
      fun c hc => by rw [← Option.some.inj hc]; decide
    have hcontext := hword (x := Bytes.ofString "context")
      (b := [0x2E] ++ Bytes.ofString "Context" ++ b) (by decide +kernel)
      fun c hc => by rw [← Option.some.inj hc]; decide
    have htype := hword (x := Bytes.ofString "Context") (b := b) (by decide +kernel) hb
    refine ⟨_, htext ▸ hctx.append ((cuts_blanks (by decide +kernel) _).append
      (hcontext.append (hus.append htype))), ?_⟩
    intro w hw
    simp only [List.mem_append, List.mem_singleton, List.not_mem_nil, false_or] at hw
    rcases hw with rfl | rfl | hw | rfl
    · simp
    · simp
    · rw [hdot w hw]
      simp
    · simp
  · refine ⟨_, hword (x := Bytes.ofString Naming.context) (by decide +kernel) hb, ?_⟩
    intro w hw
    rw [List.mem_singleton.mp hw]
    simp

/-- The statements that handlers are seeded with. -/
theorem cuts_seed {statement : String} (h : statement ∈ [Naming.httpSeed, Naming.echoSeed])
    (b : Bytes) : ∃ us, Cuts (Bytes.lineFeed :: b) (Bytes.ofString statement) us ∧ Plain us := by
  have hall : ∀ text ∈ [Naming.httpSeed, Naming.echoSeed],
      (cutsInto? (Bytes.ofString text) Bytes.lineFeed).any
        (·.all fun w => w.1 ≠ .sign .kwImport) = true := by
    decide +kernel
  obtain ⟨us, hus, hplain⟩ := (Option.any_eq_true _ _).mp (hall statement h)
  exact ⟨us, cuts_of_cutsInto? hus b, by simpa [Plain] using hplain⟩

end Edit

/-! ## Outside of import declarations -/

namespace Import

/-- The nodes that import declarations are built of. -/
def isImporting (k : Kind) : Bool :=
  k = .importDeclaration || k = .importSpecList || k = .importSpec || k = .dot

/-- In an import declaration there are only nodes of imports and tokens. -/
def importsOnly : Code.Table where
  admits k m := !isImporting k || isImporting m.kind || !m.kind.isBuilt
  requires _ := none

theorem importsOnly_agrees : Code.Grammar.Agrees importsOnly :=
  ⟨by decide +kernel, by decide, rfl⟩

variable {src : Bytes} {root n : Tree} (hparse : Code.parse? src = some root) (hn : n ∈ root.walk)

include hparse

/-- Whatever stands in an import declaration is a node of imports or is not built of others. -/
theorem isImporting_of_mem_walk {d : Tree} (hd : d ∈ root.walk)
    (himports : isImporting d.kind = true)
    (hn : n ∈ d.walk) : isImporting n.kind = true ∨ n.kind.isBuilt = false := by
  induction d using Tree.induction with
  | node d ih =>
    rcases Tree.mem_walk_iff.mp hn with rfl | ⟨c, hc, hnc⟩
    · exact .inl himports
    have hcmem := Tree.mem_walk_of_mem_children hd hc
    have hform := Code.parse?_formed importsOnly_agrees hparse hd
    have hbuilt : d.kind.isBuilt = true := by
      simp only [isImporting, Bool.or_eq_true, decide_eq_true_eq] at himports
      rcases himports with ((h | h) | h) | h <;> rw [h] <;> rfl
    have hkind : isImporting c.kind = true ∨ c.kind.isBuilt = false := by
      rcases hform.admits hbuilt c hc with hcomment | hadmits
      · rw [hcomment]
        exact .inr rfl
      · simpa [importsOnly, himports, Tree.mark] using hadmits
    rcases hkind with himports' | hleaf
    · exact ih c hc hcmem himports' hnc
    · -- a token has only parts of a literal below it, and those have nothing
      right
      rcases Tree.mem_walk_iff.mp hnc with rfl | ⟨e, he, hne⟩
      · exact hleaf
      have hinner : Code.Token.isInner n.kind = true := by
        by_cases htoken : c.kind.isToken = true
        · exact Code.isInner_of_below hparse hcmem htoken ⟨e, he, hne⟩
        · have hinner : Code.Token.isInner c.kind = true := by
            simpa [Kind.isBuilt, htoken] using hleaf
          rw [(Code.parse?_formed importsOnly_agrees hparse hcmem).inner hinner] at he
          cases he
      simp [Kind.isBuilt, hinner]

/-- At and inside of a node that no import is built of, no import is being read. -/
theorem readTo_of_mem_walk (hn : n ∈ root.walk) (hbuilt : n.kind.isBuilt = true)
    (hkind : isImporting n.kind = false) (hfile : n.kind ≠ .sourceFile) {p : Nat}
    (hstart : n.start ≤ p) (hstop : p ≤ n.stop) : ReadTo src p .idle := by
  obtain ⟨m, hread, rfl | ⟨d, hd, hdk, hdp, hpd⟩⟩ := exists_readTo hparse p
  · exact hread
  exfalso
  have hroot := Code.parse?_laid hparse
  have hne : n ≠ root := by
    rintro rfl
    exact hfile (Code.kind_of_parse? hparse)
  obtain ⟨c, hc, hnc⟩ := (Tree.mem_walk_iff.mp hn).resolve_left hne
  obtain ⟨hcn, hnc'⟩ := (hroot.of_mem_children hc).span_le_of_mem_walk hnc
  by_cases hcd : c = d
  · subst hcd
    have hcmem := Tree.mem_walk_of_mem_children root.mem_walk_self hc
    rcases isImporting_of_mem_walk hparse hcmem (by rw [hdk]; rfl) hnc with h | h
    · rw [hkind] at h
      cases h
    · rw [hbuilt] at h
      cases h
  · have := hroot.row.apart_of_ne hc hd hcd
    omega

end Import

/-! ## First elements -/

namespace Edit

variable {src : Bytes} {root : Tree} {p : Nat} {x : Bytes}

/-- Text inserted behind a guard. -/
theorem Tame.of_guard {i : Nat} {c : UInt8} (hget : src[i]? = some c)
    (hguard : Bytes.isGuard c = true) (hi : Token.Clear src i) (hbehind : Token.Clear src (i + 1))
    (hstarless : 0x2A ∉ x) (hslash : x.head? ≠ some 0x2F) (hstops : Stops x (src.drop (i + 1))) :
    Tame src (i + 1) (i + 1) x where
  le := le_rfl
  stop_le := (List.getElem?_eq_some_iff.mp hget).1
  start := hbehind
  stop := hbehind
  nul := by simp [Bytes.slice_self]
  starless := hstarless
  slash := hslash
  joins := .inr (.inl ⟨i, c, rfl, hget, hguard, hi⟩)
  stops := hstops

/-- Text inserted outside of imports. -/
theorem Harmless.of_insertion (hidle : Import.ReadTo src p .idle)
    (hcuts : ∀ b, Stops x b → ∃ us, Cuts b x us ∧ Plain us) : Harmless src p p x where
  idle := hidle
  replaced vs hvs := by
    rw [Bytes.slice_self] at hvs
    cases hvs
    simp [Plain]
  cuts := hcuts

/-- What a list gains is plain, and what it ends with is told apart from what follows. -/
theorem cuts_leadingItem (list : Tree) {sep : String} (hsep : sep = "" ∨ sep = "," ∨ sep = ", ")
    {b : Bytes} (hb : Stops (Bytes.ofString (list.leader ++ sep)) b) :
    ∃ us, Cuts b (Bytes.ofString (list.leader ++ sep)) us ∧ Plain us := by
  have hleader : list.leader ∈ [Naming.contextParameter, Naming.context] := by
    simpa using Token.leader_cases list
  have hlast : ∀ text ∈ [Naming.contextParameter, Naming.context],
      (Bytes.ofString (text ++ "")).getLast?.any (fun c => decide (¬ EndsName c)) = true := by
    decide +kernel
  have hcomma : ∀ {x b : Bytes}, (∀ c ∈ x, Bytes.isBlank c = true) →
      ∃ us, Cuts b (0x2C :: x) us ∧ Plain us := by
    intro x b hx
    obtain ⟨us, hus, hsign⟩ := Token.cuts_sign (b := x ++ b) (c := 0x2C) rfl (Token.next_comma _)
    refine ⟨us ++ [], hus.append (Token.cuts_blanks hx b), fun w hw => ?_⟩
    rw [List.append_nil] at hw
    rw [hsign w hw]
    simp
  have hboth : ∀ {y : Bytes}, (∀ c ∈ y, Bytes.isBlank c = true) → Bytes.ofString sep = 0x2C :: y →
      ∃ us, Cuts b (Bytes.ofString (list.leader ++ sep)) us ∧ Plain us := by
    intro y hy htext
    rw [Bytes.ofString_append, htext]
    obtain ⟨vs, hvs, hvsPlain⟩ := cuts_leader (b := 0x2C :: y ++ b) hleader
      fun c hc => by rw [← Option.some.inj hc]; decide
    obtain ⟨us, hus, husPlain⟩ := hcomma (b := b) hy
    exact ⟨vs ++ us, hvs.append hus, List.forall_mem_append.mpr ⟨hvsPlain, husPlain⟩⟩
  rcases hsep with rfl | rfl | rfl
  · rw [String.append_empty] at hb ⊢
    refine cuts_leader hleader (hb.resolve_left fun hall => ?_)
    obtain ⟨c, hc, hends⟩ := (Option.any_eq_true _ _).mp (hlast _ hleader)
    rw [String.append_empty] at hc
    exact of_decide_eq_true hends (hall c hc)
  · exact hboth (y := []) (by simp) rfl
  · exact hboth (y := [0x20]) (by decide +kernel) rfl

/-- A list that gains its first element leaves the imports alone. -/
theorem fine_leadingItem (hparse : Code.parse? src = some root) {list : Tree}
    (hlist : list ∈ root.walk) (hk : list.kind = .parameterList ∨ list.kind = .argumentList) :
    Fine src (leadingItem src list list.elements list.leader) ∧
      (leadingItem src list list.elements list.leader).isGroup = false := by
  have hlaid := (Code.parse?_laid hparse).of_mem_walk hlist
  have hopen := hlaid.opens_paren hk
  obtain ⟨sep, he, hsep⟩ := leadingItem_eq src list list.elements list.leader
  replace hsep := hsep.cases
  have hseps : sep = "" ∨ sep = "," ∨ sep = ", " := by
    rcases hsep with ⟨h, -⟩ | ⟨h, -⟩
    · exact .inl h
    · exact .inr h
  have hleader : list.leader ∈ [Naming.contextParameter, Naming.context] := by
    simpa using Token.leader_cases list
  have hchecks : ∀ text ∈ [Naming.contextParameter, Naming.context], ∀ sep ∈ ["", ",", ", "],
      Bytes.ofString (text ++ sep) ≠ [] ∧ (0x2A : UInt8) ∉ Bytes.ofString (text ++ sep) ∧
        (0x22 : UInt8) ∉ Bytes.ofString (text ++ sep) ∧
        (Bytes.ofString (text ++ sep)).head? = some 0x63 ∧ (sep ≠ "" →
          (Bytes.ofString (text ++ sep)).getLast?.all (fun c => decide (EndsName c)) = true) := by
    decide +kernel
  obtain ⟨hne, hstarless, hquoteless, hhead, hends⟩ := hchecks _ hleader sep (by simpa using hseps)
  have hstops : Stops (Bytes.ofString (list.leader ++ sep)) (src.drop (list.start + 1)) := by
    rcases hsep with ⟨rfl, hnone⟩ | ⟨h, -⟩
    · -- nothing is separated in an empty list, so that its end comes next
      right
      obtain ⟨gap, rp, rest, hscan, hgap, hrp, -⟩ :=
        Code.exists_scanAt_of_empty hparse hlist hk hnone hopen
      have hnext : Code.Rule.nextLexeme? (Token.scanAt src (list.start + 1)) =
          some (.sign .rparen) := by
        rw [hscan, Token.nextLexeme?_gap hgap (by simp [hrp]) (by simp [hrp]), hrp]
      exact Token.endsName_of_nextLexeme? hnext
    · left
      have hne : sep ≠ "" := by rcases h with rfl | rfl <;> decide
      intro c hc
      have := (Option.all_eq_true _ _).mp (hends hne) c hc
      exact of_decide_eq_true this
  have hslash : (Bytes.ofString (list.leader ++ sep)).head? ≠ some 0x2F := by
    rw [hhead]
    decide
  change leadingItem src list list.elements list.leader =
    insertion (list.start + 1 : Nat) (list.leader ++ sep) at he
  have hgroup : (insertion (list.start + 1 : Nat) (list.leader ++ sep)).isGroup = false :=
    isGroup_eq_false hquoteless
  rw [he]
  refine ⟨⟨hne, .leader list.start rfl rfl hhead hopen hstops, list.start + 1, list.start + 1, rfl,
    rfl, ?_, .inl ⟨?_, ?_⟩⟩, hgroup⟩
  · exact (Token.base_le hopen (by decide)).trans (Nat.le_succ _)
  · refine .of_guard hopen rfl ?_ ((Code.clear_paren hparse hlist hk).scanned hparse) hstarless
      hslash hstops
    refine (Code.clear_of_isInner hparse hlist ?_).1.scanned hparse
    rcases hk with hk | hk <;> rw [hk] <;> rfl
  · rw [hgroup, if_neg (by decide)]
    refine .of_insertion ?_ fun b hb => cuts_leadingItem list hseps hb
    refine Import.readTo_of_mem_walk hparse hlist ?_ ?_ ?_ (Nat.le_succ _) ?_
    · rcases hk with hk | hk <;> rw [hk] <;> rfl
    · rcases hk with hk | hk <;> rw [hk] <;> rfl
    · rcases hk with hk | hk <;> rw [hk] <;> decide
    · obtain ⟨y, mid, z, hchildren, hy, -, hstart, -⟩ := hlaid.shaped.parens hk
      have hmem : y ∈ list.children := hchildren ▸ List.mem_cons_self
      have hstop := ((hlaid.of_mem_children hmem).bracket hy rfl).1
      have hbounds := hlaid.row.bounds_of_mem hmem
      omega

end Edit

end CtxThread
