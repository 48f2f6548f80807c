import CtxThread.Proofs.Threading

/-!
# Edits and tokens

Edits are planned where nodes start and end, and no node starts or ends inside a token. Two edits
are planned at a line end instead, wherever it is: the first statement of a body that goes over
several lines, and the import. They fall inside a comment or a literal that goes on after that
line, and nothing else ever falls inside a token. A comment or a literal that no edit falls inside
of stands in the new text as it is.

## Main definitions

- `Edit.Strikes`: an end of an edit falls inside a node
- `Tree.Clear`: an offset that is inside no token
- `Edit.Fair`: an edit between two such offsets that replaces separators or one name
- `Seed.AtLine`, `ContextImport.AtLine`: the offsets at a line end that edits are planned for

## Main statements

- `Code.clear_start`, `Code.clear_stop`: nodes start and end outside of tokens
- `FileUpdate.mem_edits`: every edit of a plan is fair or goes to a line end
- `updateFile_strikes`: when an edit falls inside a token, and what stands as it is
-/

namespace CtxThread

open Code (Tree Token Kind Site)

/-- The start or the end of the edit falls strictly inside the node. -/
def Edit.Strikes (e : Edit) (t : Tree) : Prop :=
  (t.start < e.start ∧ e.start < t.stop) ∨ (t.start < e.stop ∧ e.stop < t.stop)

instance (e : Edit) (t : Tree) : Decidable (e.Strikes t) :=
  inferInstanceAs (Decidable (_ ∨ _))

namespace Code

/-- The parts of a literal stand in literals only. -/
def outsideLiterals : Table := ⟨fun _ m => !Token.isInner m.kind, fun _ => none⟩

theorem outsideLiterals_agrees : Grammar.Agrees outsideLiterals :=
  ⟨by decide +kernel, by decide, rfl⟩

theorem Kind.isInner_of_isToken {k : Kind} (h : k.isToken = true) : Token.isInner k = false := by
  by_contra hinner
  rw [isToken_of_isInner (Bool.eq_true_of_not_eq_false hinner)] at h
  cases h

/-- The offset is not strictly inside a token of the tree. -/
def Tree.Clear (root : Tree) (p : Int) : Prop :=
  ∀ t ∈ root.walk, t.kind.isToken = true → p ≤ t.start ∨ t.stop ≤ p

theorem Tree.mem_walk_of_mem_children {root n c : Tree} (hn : n ∈ root.walk)
    (hc : c ∈ n.children) : c ∈ root.walk :=
  mem_walk_trans hn (mem_walk_iff.mpr (.inr ⟨c, hc, c.mem_walk_self⟩))

section Parsed

variable {src : Bytes} {root t n : Tree} (hparse : parse? src = some root) (ht : t ∈ root.walk)
  (hn : n ∈ root.walk)

include hparse ht

/-- Below a token there are only the parts of a literal. -/
theorem isInner_of_below (htoken : t.kind.isToken = true)
    (hbelow : ∃ c ∈ t.children, n ∈ c.walk) : Token.isInner n.kind = true := by
  obtain ⟨c, hc, hnc⟩ := hbelow
  obtain ⟨hleaf, hpart⟩ := ((parse?_formed outsideLiterals_agrees hparse ht).token htoken).2 c hc
  rcases Tree.mem_walk_iff.mp hnc with rfl | ⟨d, hd, _⟩
  · exact hpart
  · rw [hleaf] at hd
    cases hd

/-- A token has the bytes of its span. -/
theorem bytes_of_isToken (htoken : t.kind.isToken = true) :
    t.bytes = src.slice t.start t.stop := by
  have hform := parse?_formed outsideLiterals_agrees hparse ht
  refine (((parse?_laid hparse).of_mem_walk ht).bytes).resolve_left fun hnil => ?_
  rcases Bool.or_eq_true_iff.mp htoken with hsolid | hpart
  · obtain ⟨b, hb, _⟩ := hform.solid hsolid
    rw [hnil] at hb
    cases hb
  · exact (hform.line hpart).1 hnil

include hn

/-- A node that is no part of a literal is a given token itself, or stands before or after it, or
has it below. -/
theorem cases_of_isToken (htoken : t.kind.isToken = true)
    (hinner : Token.isInner n.kind = false) :
    n = t ∨ n.stop ≤ t.start ∨ t.stop ≤ n.start ∨ ∃ c ∈ n.children, t ∈ c.walk := by
  by_cases hnt : n = t
  · exact .inl hnt
  have hpairs : root.walk.Pairwise fun a b =>
      (a.stop ≤ b.start ∨ ∃ c ∈ a.children, b ∈ c.walk) ∨
        (b.stop ≤ a.start ∨ ∃ c ∈ b.children, a ∈ c.walk) :=
    (parse?_laid hparse).pairwise_walk.imp .inl
  have : Std.Symm fun a b : Tree =>
      (a.stop ≤ b.start ∨ ∃ c ∈ a.children, b ∈ c.walk) ∨
        (b.stop ≤ a.start ∨ ∃ c ∈ b.children, a ∈ c.walk) := ⟨fun _ _ => Or.symm⟩
  rcases hpairs.forall hn ht hnt with (hafter | hbelow) | hbefore | hbelow
  · exact .inr (.inl hafter)
  · exact .inr (.inr (.inr hbelow))
  · exact .inr (.inr (.inl hbefore))
  · rw [isInner_of_below hparse ht htoken hbelow] at hinner
    cases hinner

/-- Two tokens are one, or one stands before the other. -/
theorem eq_or_apart_of_isToken (htoken : t.kind.isToken = true) (htoken' : n.kind.isToken = true) :
    n = t ∨ n.stop ≤ t.start ∨ t.stop ≤ n.start := by
  rcases cases_of_isToken hparse ht hn htoken (Kind.isInner_of_isToken htoken') with
    h | h | h | hbelow
  · exact .inl h
  · exact .inr (.inl h)
  · exact .inr (.inr h)
  · have hinner := isInner_of_below hparse hn htoken' hbelow
    rw [Kind.isInner_of_isToken htoken] at hinner
    cases hinner

end Parsed

section Offsets

variable {src : Bytes} {root n : Tree} (hparse : parse? src = some root) (hn : n ∈ root.walk)

include hparse hn

/-- No node starts or ends inside a token, the parts of literals aside. -/
theorem clear_of_isInner (hinner : Token.isInner n.kind = false) :
    root.Clear n.start ∧ root.Clear n.stop := by
  have hroot := parse?_laid hparse
  have hspan := (hroot.of_mem_walk hn).start_le_stop
  suffices h : ∀ t ∈ root.walk, t.kind.isToken = true →
      (n.start ≤ t.start ∨ t.stop ≤ n.start) ∧ (n.stop ≤ t.start ∨ t.stop ≤ n.stop) by
    constructor
    · intro t ht htoken
      have := (h t ht htoken).1
      omega
    · intro t ht htoken
      have := (h t ht htoken).2
      omega
  intro t ht htoken
  rcases cases_of_isToken hparse ht hn htoken hinner with rfl | h | h | ⟨c, hc, htc⟩
  · omega
  · omega
  · omega
  · have hbelow := (hroot.of_mem_walk hn).span_le_of_mem_walk
      (Tree.mem_walk_iff.mpr (.inr ⟨c, hc, htc⟩))
    omega

/-- The offset behind an opening bracket is clear. -/
theorem clear_opening {opening closing : Sign} {b : UInt8}
    (hbrackets : n.Bracketed opening closing) (hb : opening.bracket? = some b)
    (hinner : Token.isInner (.sign opening) = false) : root.Clear (n.start + 1 : Nat) := by
  obtain ⟨x, mid, y, hchildren, hx, _, hstart, _⟩ := hbrackets
  have hmem : x ∈ root.walk :=
    Tree.mem_walk_of_mem_children hn (hchildren ▸ List.mem_cons_self)
  have hstop := (((parse?_laid hparse).of_mem_walk hmem).bracket hx hb).1
  rw [← hstart, ← hstop]
  exact (clear_of_isInner hparse hmem (hx ▸ hinner)).2

/-- The offset behind the parenthesis of a list of parameters or arguments is clear. -/
theorem clear_paren (hk : n.kind = .parameterList ∨ n.kind = .argumentList) :
    root.Clear (n.start + 1 : Nat) :=
  clear_opening hparse hn (((parse?_laid hparse).of_mem_walk hn).shaped.parens hk) rfl rfl

/-- The offsets behind the opening and before the closing brace of a body are clear. -/
theorem clear_braces (hk : n.kind = .block ∨ n.kind = .literalValue) :
    root.Clear (n.start + 1 : Nat) ∧ root.Clear (n.stop - 1 : Nat) := by
  have hbrackets := ((parse?_laid hparse).of_mem_walk hn).shaped.braces hk
  refine ⟨clear_opening hparse hn hbrackets rfl rfl, ?_⟩
  obtain ⟨x, mid, y, hchildren, _, hy, _, hstop⟩ := hbrackets
  have hmem : y ∈ root.walk := Tree.mem_walk_of_mem_children hn (hchildren ▸ by simp)
  have hspan := (((parse?_laid hparse).of_mem_walk hmem).bracket hy rfl).1
  rw [show n.stop - 1 = y.start by omega]
  exact (clear_of_isInner hparse hmem (by rw [hy]; rfl)).1

/-- The children of a node that is no token are no parts of literals. -/
theorem isInner_of_mem_children {c : Tree} (hk : n.kind.isBuilt = true) (hc : c ∈ n.children) :
    Token.isInner c.kind = false := by
  rcases (parse?_formed outsideLiterals_agrees hparse hn).admits hk c hc with hcomment | hadmits
  · rw [hcomment]
    rfl
  · simpa [outsideLiterals, Tree.mark] using hadmits

/-- The statements of a body start and end outside of tokens. -/
theorem clear_statement (hk : n.kind = .block ∨ n.kind = .literalValue) {s : Tree}
    (hs : s ∈ n.statements) : root.Clear s.start ∧ root.Clear s.stop := by
  have hbuilt : n.kind.isBuilt = true := by rcases hk with hk | hk <;> rw [hk] <;> rfl
  rw [Tree.statements_eq] at hs
  obtain ⟨c, hc, hs⟩ := List.mem_flatMap.mp hs
  have hcmem := Tree.mem_walk_of_mem_children hn hc
  unfold Tree.asStatements at hs
  split at hs
  · next hlist =>
    have hsc := (List.mem_filter.mp hs).1
    exact clear_of_isInner hparse (Tree.mem_walk_of_mem_children hcmem hsc)
      (isInner_of_mem_children hparse hcmem (by rw [hlist]; rfl) hsc)
  · split at hs
    · rw [List.mem_singleton.mp hs]
      exact clear_of_isInner hparse hcmem (isInner_of_mem_children hparse hn hbuilt hc)
    · cases hs

end Offsets

end Code

/-! ## Fair edits -/

/-- An edit between two offsets that are inside no token. It replaces separators or one name. -/
structure Edit.Fair (src : Bytes) (root : Tree) (e : Edit) : Prop where
  start : root.Clear e.start
  stop : root.Clear e.stop
  covers : (src.between e.start e.stop).substance = [] ∨
    ∃ n ∈ root.walk, n.kind.isPart = true ∧ e.start = n.start ∧ e.stop = n.stop

namespace Edit.Fair

variable {src : Bytes} {root t : Tree} {e : Edit}

theorem of_insertion (hstart : root.Clear e.start) (h : e.stop = e.start) : e.Fair src root :=
  ⟨hstart, h ▸ hstart, .inl (by rw [h, Bytes.between_self]; rfl)⟩

/-- A fair edit falls inside no token. -/
theorem not_strikes (h : e.Fair src root) (ht : t ∈ root.walk) (htoken : t.kind.isToken = true) :
    ¬ e.Strikes t := by
  have hstart := h.start t ht htoken
  have hstop := h.stop t ht htoken
  rw [Strikes]
  omega

/-- A fair edit keeps off all comments and literals. -/
theorem apart (hparse : Code.parse? src = some root) (h : e.Fair src root) (hfits : e.Fits src)
    (ht : t ∈ root.walk) (hsolid : t.kind.isSolid = true) :
    e.stop ≤ t.start ∨ t.stop ≤ e.start := by
  have htoken := Kind.isToken_of_isSolid hsolid
  have hform := Code.parse?_formed Code.outsideLiterals_agrees hparse ht
  have hspan := (hform.token htoken).1
  by_contra hover
  have hstart := h.start t ht htoken
  have hstop := h.stop t ht htoken
  rcases h.covers with hblank | ⟨n, hn, hpart, hnstart, hnstop⟩
  · -- the edit would replace the first byte of the token, which is no separator
    obtain ⟨b, hb, hsep⟩ := hform.solid hsolid
    have hget : src[t.start]? = some b := by
      have := Bytes.getElem?_slice src t.start t.stop 0
      rw [← Code.bytes_of_isToken hparse ht htoken, ← List.head?_eq_getElem?, hb,
        if_pos (by omega)] at this
      exact this.symm
    obtain ⟨h0, h1, h2⟩ := hfits
    obtain ⟨a, ha⟩ := Int.eq_ofNat_of_zero_le h0
    obtain ⟨c, hc⟩ := Int.eq_ofNat_of_zero_le (h0.trans h1)
    rw [ha, hc, Bytes.between_natCast (by omega) (by omega)] at hblank
    have hmem : b ∈ src.slice a c := Bytes.mem_slice_of_getElem? (by omega) (by omega) hget
    have := List.filter_eq_nil_iff.mp hblank b hmem
    simp [hsep] at this
  · rcases Code.eq_or_apart_of_isToken hparse ht hn htoken (Kind.isToken_of_isPart hpart) with
      rfl | hn' | hn'
    · rw [Kind.isPart_of_isSolid hsolid] at hpart
      cases hpart
    · omega
    · omega

end Edit.Fair

/-! ## Where edits are planned -/

/-- The offset is behind the first line end of a body that is to be seeded and goes over several
lines. -/
def Seed.AtLine (s : Settings) (f : SourceFile) (p : Nat) : Prop :=
  ∃ func ∈ f.root.walk, ∃ statement body eol, Handler.seed? s func = some statement ∧
    func.child? .body = some body ∧ isSeeded f.src body.statements statement = false ∧
    f.src.sameLine body.start (front body) = false ∧
    f.src.lineEnd? (body.start + 1) = some eol ∧ p = eol + 1

/-- The offset is the end of the line of the package clause, in a file that is to gain the
import. -/
def ContextImport.AtLine (f : SourceFile) (p : Nat) : Prop :=
  f.importCount Naming.contextPath = 0 ∧
    ∃ clause, f.clause? = some clause ∧ f.src.lineEnd? clause.stop = some p

namespace Seed

/-- The edits behind the first statement start at the end of one statement and go to the start of
another or to the closing brace. -/
theorem mem_trailing {src : Bytes} {closing : Nat} {inner indent : String} {ts : List Tree}
    {e : Edit} (he : e ∈ trailing src closing inner indent ts) :
    (∃ a ∈ ts, e.start = a.stop) ∧ (e.stop = closing ∨ ∃ b ∈ ts, e.stop = b.start) := by
  induction ts with
  | nil => cases he
  | cons a ts ih =>
    cases ts with
    | nil =>
      obtain ⟨rfl, _⟩ := mem_respace (show e ∈ respace src a.stop closing ("\n" ++ indent) from he)
      exact ⟨⟨a, List.mem_cons_self, rfl⟩, .inl rfl⟩
    | cons b ts =>
      rw [trailing_cons_cons] at he
      rcases List.mem_append.mp he with he | he
      · obtain ⟨rfl, _⟩ := mem_respace he
        exact ⟨⟨a, List.mem_cons_self, rfl⟩, .inr ⟨b, by simp, rfl⟩⟩
      · obtain ⟨⟨x, hx, hstart⟩, hstop⟩ := ih he
        refine ⟨⟨x, List.mem_cons_of_mem a hx, hstart⟩, hstop.imp_right ?_⟩
        exact fun ⟨y, hy, hy'⟩ => ⟨y, List.mem_cons_of_mem a hy, hy'⟩

section Body

variable {src : Bytes} {root body : Tree} (hparse : Code.parse? src = some root)
  (hbody : body ∈ root.walk) (hk : body.kind = .block ∨ body.kind = .literalValue)

include hparse hbody hk

theorem clear_front : root.Clear (front body) := by
  unfold front
  cases hs : body.statements with
  | nil => exact (Code.clear_braces hparse hbody hk).2
  | cons a ts => exact (Code.clear_statement hparse hbody hk (hs ▸ List.mem_cons_self)).1

/-- Every edit that seeds a body is fair or goes behind the first line end. -/
theorem fair_or_atLine {func : Tree} {statement : String} {e : Edit}
    (he : e ∈ edits src func body statement) :
    e.Fair src root ∨ src.sameLine body.start (front body) = false ∧
      ∃ eol, src.lineEnd? (body.start + 1) = some eol ∧ e.start = (eol + 1 : Nat) ∧
        e.stop = (eol + 1 : Nat) := by
  have hlaid := (Code.parse?_laid hparse).of_mem_walk hbody
  obtain ⟨hopening, hclosing⟩ := Code.clear_braces hparse hbody hk
  cases hline : src.sameLine body.start (front body) with
  | false =>
    have hline' := hline
    rw [front] at hline'
    simp only [edits, hline', Bool.not_false, if_true] at he
    split at he
    · next eol heol =>
      obtain rfl := List.mem_singleton.mp he
      exact .inr ⟨rfl, eol, heol, rfl, rfl⟩
    · cases he
  | true =>
    left
    obtain ⟨stop, text, hedits, hstop⟩ := edits_of_sameLine hline
    rw [hedits] at he
    rcases List.mem_cons.mp he with rfl | he
    · rcases hstop with rfl | ⟨rfl, hsep⟩
      · exact .of_insertion hopening rfl
      · refine ⟨hopening, clear_front hparse hbody hk, .inl ?_⟩
        obtain ⟨h1, h2⟩ := front_bounds hlaid hk
        have hlen := hlaid.stop_le
        rw [Bytes.between_natCast h1 (by omega)]
        exact Bytes.substance_eq_nil hsep
    · obtain ⟨⟨a, ha, hstart⟩, hend⟩ := mem_trailing he
      refine ⟨hstart ▸ (Code.clear_statement hparse hbody hk ha).2, ?_, .inl ?_⟩
      · rcases hend with hend | ⟨b, hb, hend⟩
        · exact hend ▸ hclosing
        · exact hend ▸ (Code.clear_statement hparse hbody hk hb).1
      · exact ((trailing_spec hlaid hk _ _).1 e he).2.blank

end Body

end Seed

namespace FileUpdate

variable {s : Settings} {f : SourceFile} (hparse : Code.parse? f.src = some f.root)

include hparse

/-- A list gains its first element behind its parenthesis. -/
theorem leadingItem_fair {list : Tree} (hlist : list ∈ f.root.walk)
    (hk : list.kind = .parameterList ∨ list.kind = .argumentList) (items : List Tree)
    (text : String) : (leadingItem f.src list items text).Fair f.src f.root := by
  obtain ⟨hstart, hstop⟩ := leadingItem_start f.src list items text
  refine .of_insertion ?_ (hstop.trans hstart.symm)
  rw [hstart]
  exact Code.clear_paren hparse hlist hk

/-- The edits that a node gives rise to are fair or go behind a line end. -/
theorem mem_ownEdits {z : Tree × Option (Tree × String)} (hz : z.1 ∈ f.root.walk)
    (hhit : ∀ hit, z.2 = some hit → Retarget.IsHit z.1 hit.1 hit.2) {e : Edit}
    (he : e ∈ ownEdits s f.src z) :
    e.Fair f.src f.root ∨ ∃ p : Nat, Seed.AtLine s f p ∧ e.start = p ∧ e.stop = p := by
  have hlaid := (Code.parse?_laid hparse).of_mem_walk hz
  rw [ownEdits, List.mem_append, List.mem_append] at he
  rcases he with he | he | he
  · obtain ⟨hit, hmem, rfl⟩ := List.mem_map.mp he
    have hit' := hhit hit (Option.mem_toList.mp hmem)
    obtain ⟨fn, hfn, _, hfield⟩ := hit'.selects
    have hfieldMem : hit.1 ∈ f.root.walk :=
      Tree.mem_walk_of_mem_children
        (Tree.mem_walk_of_mem_children hz (Tree.mem_of_child? hfn).1) (Tree.mem_of_child? hfield).1
    have hkind := (Retarget.field_laid hlaid hit').2
    obtain ⟨hstart, hstop⟩ := Code.clear_of_isInner hparse hfieldMem (by rw [hkind]; rfl)
    exact .inl ⟨hstart, hstop, .inr ⟨hit.1, hfieldMem, by rw [hkind]; rfl, rfl, rfl⟩⟩
  · left
    unfold Handler.parameterEdits at he
    split at he
    · obtain ⟨list, hlist, rfl⟩ := List.mem_map.mp he
      have hlist := Option.mem_toList.mp hlist
      have hkind := (child_laid hlaid hlist).2
      exact leadingItem_fair hparse
        (Tree.mem_walk_of_mem_children hz (Tree.mem_of_child? hlist).1)
        (.inl (by simpa [Code.Role.admits] using hkind)) _ _
    · cases he
  · obtain ⟨statement, hstatement, he⟩ := List.mem_flatMap.mp he
    have hstatement := Option.mem_toList.mp hstatement
    unfold Seed.missing at he
    cases hbody : z.1.child? .body with
    | none => rw [hbody] at he; cases he
    | some body =>
      rw [hbody] at he
      dsimp only at he
      split at he
      · cases he
      · next hseeded =>
        have hmem := Tree.mem_walk_of_mem_children hz (Tree.mem_of_child? hbody).1
        refine (Seed.fair_or_atLine hparse hmem (Seed.body_laid hlaid hbody).2 he).imp_right ?_
        rintro ⟨hline, eol, heol, hstart, hstop⟩
        exact ⟨eol + 1, ⟨z.1, hz, statement, body, eol, hstatement, hbody, by simpa using hseeded,
          hline, heol, rfl⟩, hstart, hstop⟩

/-- The import goes to an end of the text or to the end of the line of the package clause. -/
theorem mem_importEdits {e : Edit} (he : e ∈ ContextImport.edits f) :
    e.Fair f.src f.root ∨ ∃ p : Nat, ContextImport.AtLine f p ∧ e.start = p ∧ e.stop = p := by
  have hroot := Code.parse?_laid hparse
  have hlast : f.root.Clear f.src.length := by
    intro t ht _
    have := (hroot.of_mem_walk ht).stop_le
    omega
  unfold ContextImport.edits at he
  split at he
  · cases he
  · next hcount =>
    cases hclause : f.clause? with
    | none =>
      rw [hclause] at he
      obtain rfl := List.mem_singleton.mp he
      exact .inl (.of_insertion (fun t _ _ => .inl (Int.natCast_nonneg _)) rfl)
    | some clause =>
      rw [hclause] at he
      dsimp only at he
      split at he
      · next eol heol =>
        obtain rfl := List.mem_singleton.mp he
        exact .inr ⟨eol, ⟨by simpa using hcount, clause, hclause, heol⟩, rfl, rfl⟩
      · left
        rcases List.mem_cons.mp he with rfl | he
        · exact .of_insertion hlast rfl
        · obtain rfl := List.mem_singleton.mp he
          exact .of_insertion hlast rfl

variable {hits : List (Option (Tree × String))} (hhits : Hits (f.root.walk.zip hits))

include hhits

/-- Every edit of a plan is fair or goes to a line end. -/
theorem mem_edits {e : Edit} (he : e ∈ (planned s f hits).finish.plan.edits) :
    e.Fair f.src f.root ∨ ∃ p : Nat, (Seed.AtLine s f p ∨
      (planned s f hits).finish.changed = true ∧ ContextImport.AtLine f p) ∧
      e.start = p ∧ e.stop = p := by
  rcases List.mem_append.mp he with he | he
  · rw [planned_plain s hhits] at he
    rcases List.mem_append.mp he with he | he
    · obtain ⟨z, hz, he⟩ := List.mem_flatMap.mp he
      refine (mem_ownEdits hparse (List.of_mem_zip hz).1 ?_ he).imp_right ?_
      · exact fun hit hhit => (hhits.call z hz hit hhit).2
      · exact fun ⟨p, hp, hspan⟩ => ⟨p, .inl hp, hspan⟩
    · split at he
      · next hchanged =>
        refine (mem_importEdits hparse he).imp_right ?_
        exact fun ⟨p, hp, hspan⟩ => ⟨p, .inr ⟨hchanged, hp⟩, hspan⟩
      · cases he
  · obtain ⟨entry, hentry, rfl⟩ := List.mem_map.mp he
    obtain ⟨call, hcall, list, hlist, rfl⟩ :=
      (planned_leads s (Code.distinct_calls hparse) hhits).placed entry hentry
    have hmem := (List.mem_filter.mp hcall).1
    have hkind := (child_laid ((Code.parse?_laid hparse).of_mem_walk hmem) hlist).2
    exact .inl (leadingItem_fair hparse
      (Tree.mem_walk_of_mem_children hmem (Tree.mem_of_child? hlist).1)
      (.inr (by simpa [Code.Role.admits] using hkind)) _ _)

omit hparse in
/-- The edits at line ends are planned. -/
theorem exists_mem_edits (hlen : hits.length = f.root.walk.length) {p : Nat}
    (hp : Seed.AtLine s f p ∨
      (planned s f hits).finish.changed = true ∧ ContextImport.AtLine f p) :
    ∃ e ∈ (planned s f hits).finish.plan.edits, e.start = p ∧ e.stop = p := by
  suffices h : ∃ e ∈ (planned s f hits).finish.plan.plain, e.start = p ∧ e.stop = p by
    obtain ⟨e, he, hspan⟩ := h
    exact ⟨e, List.mem_append_left _ he, hspan⟩
  rw [planned_plain s hhits]
  rcases hp with ⟨func, hfunc, statement, body, eol, hseed, hbody, hseeded, hline, heol, rfl⟩ |
    ⟨hchanged, hcount, clause, hclause, heol⟩
  · have hfunc' : func ∈ (f.root.walk.zip hits).map Prod.fst := by
      rwa [List.map_fst_zip hlen.ge]
    obtain ⟨z, hz, rfl⟩ := List.mem_map.mp hfunc'
    have hedits : Seed.edits f.src z.1 body statement =
        [.insertion (eol + 1) (Seed.indentOf f.src z.1 ++ "\t" ++ statement ++ "\n")] :=
      Seed.edits_of_lineEnd hline heol
    refine ⟨.insertion (eol + 1) (Seed.indentOf f.src z.1 ++ "\t" ++ statement ++ "\n"),
      List.mem_append_left _ (List.mem_flatMap.mpr ⟨z, hz, ?_⟩), rfl, rfl⟩
    rw [ownEdits, hseed]
    refine List.mem_append_right _ (List.mem_append_right _ ?_)
    simp [Seed.missing, hbody, hseeded, hedits]
  · refine ⟨.insertion p ("\n\n" ++ ContextImport.group), List.mem_append_right _ ?_, rfl, rfl⟩
    rw [if_pos hchanged, ContextImport.edits, if_neg (by simp [hcount]), hclause]
    dsimp only
    rw [heol]
    exact List.mem_singleton_self _

end FileUpdate

/-- There is a line end right at or before the offset, inside every node that the offset is
inside of. -/
theorem exists_lineFeed_of_atLine {s : Settings} {f : SourceFile} {p : Nat}
    (h : Seed.AtLine s f p ∨ ContextImport.AtLine f p) {a b : Nat} (ha : a < p) (hb : p < b) :
    Bytes.lineFeed ∈ f.src.slice a b := by
  rcases h with ⟨func, _, statement, body, eol, _, _, _, _, heol, rfl⟩ | ⟨_, clause, _, heol⟩
  · exact Bytes.mem_slice_of_getElem? (by omega) (by omega) (Bytes.getElem?_of_lineEnd? heol).2
  · exact Bytes.mem_slice_of_getElem? ha.le hb (Bytes.getElem?_of_lineEnd? heol).2

section File

variable {path : Path} {src : Bytes} {f : SourceFile} {env : Env} {s : Settings} {i : Nat}
  {m m' : Memo} {u : FileUpdate}

/-- An edit planned for a file that parses falls inside a token exactly if the token goes over the
line end that the first statement of a handler or the import is planned at. Such a token is a
comment or a literal, never a name. Every comment and literal that no edit falls inside of stands
in the new text as it is, moved by what the edits in front of it add. -/
theorem updateFile_strikes (hf : SourceFile.read? path src = some f)
    (hu : updateFile env s i f m = some (u, m')) :
    ∃ out, u.output = .ok out ∧ ∀ t ∈ f.root.walk, t.kind.isToken = true →
      ((∃ e ∈ u.plan.edits, e.Strikes t) ↔
        ∃ p : Nat, (Seed.AtLine s f p ∨ u.changed = true ∧ ContextImport.AtLine f p) ∧
          t.start < p ∧ p < t.stop) ∧
      ((∃ e ∈ u.plan.edits, e.Strikes t) → t.kind.isSolid = true ∧ Bytes.lineFeed ∈ t.bytes) ∧
      (t.kind.isSolid = true → (∀ e ∈ u.plan.edits, ¬ e.Strikes t) →
        ∃ before after, out = before ++ t.bytes ++ after ∧
          (before.length : Int) = t.start + Edit.shift u.plan.edits t.start) := by
  have hparse : Code.parse? f.src = some f.root := by
    obtain ⟨root, hparse, rfl⟩ := Option.map_eq_some_iff.mp hf
    exact hparse
  have hroot := Code.parse?_laid hparse
  obtain ⟨hfile, hsound⟩ := updateFile_sound hroot hu
  obtain ⟨out, hout⟩ := FileUpdate.output_ok (hfile.symm ▸ hsound)
  obtain ⟨hits, hhits, rfl⟩ := updateFile_eq_some.mp hu
  obtain ⟨hlen, hspec⟩ := FileUpdate.hits_of_laid hroot hhits
  refine ⟨out, hout, fun t ht htoken => ?_⟩
  have hform := Code.parse?_formed Code.outsideLiterals_agrees hparse ht
  have hiff : (∃ e ∈ (FileUpdate.planned s f hits).finish.plan.edits, e.Strikes t) ↔
      ∃ p : Nat, (Seed.AtLine s f p ∨ (FileUpdate.planned s f hits).finish.changed = true ∧
        ContextImport.AtLine f p) ∧ t.start < p ∧ p < t.stop := by
    constructor
    · rintro ⟨e, he, hstrikes⟩
      rcases FileUpdate.mem_edits hparse hspec he with hfair | ⟨p, hp, hstart, hstop⟩
      · exact absurd hstrikes (hfair.not_strikes ht htoken)
      · rw [Edit.Strikes, hstart, hstop] at hstrikes
        exact ⟨p, hp, by omega, by omega⟩
    · rintro ⟨p, hp, hlt, hgt⟩
      obtain ⟨e, he, hstart, hstop⟩ := FileUpdate.exists_mem_edits hspec hlen hp
      exact ⟨e, he, .inl (by omega)⟩
  refine ⟨hiff, fun hstrikes => ?_, fun hsolid hclear => ?_⟩
  · obtain ⟨p, hp, hlt, hgt⟩ := hiff.mp hstrikes
    have hfeed := exists_lineFeed_of_atLine (hp.imp_right And.right) hlt hgt
    rw [← Code.bytes_of_isToken hparse ht htoken] at hfeed
    refine ⟨?_, hfeed⟩
    rcases Bool.or_eq_true_iff.mp htoken with hsolid | hpart
    · exact hsolid
    · exact absurd hfeed (hform.line hpart).2
  · rw [Code.bytes_of_isToken hparse ht htoken]
    have hspan := (hform.token htoken).1
    have hsplice : Edit.splice f.src (FileUpdate.planned s f hits).finish.plan.edits = .ok out := by
      rwa [FileUpdate.output, hfile] at hout
    refine Edit.splice_stands hspan (hroot.of_mem_walk ht).stop_le (fun _ he => hsound.fits he)
      hsound.pairwise (fun e he => ?_) hsplice
    rcases FileUpdate.mem_edits hparse hspec he with hfair | ⟨p, _, hstart, hstop⟩
    · exact hfair.apart hparse (hsound.fits he) ht hsolid
    · have := hclear e he
      rw [Edit.Strikes] at this
      omega

end File

/-- A file with comments that go over the line end after the package clause and after the brace of
a handler, and with a literal and a comment that do not. -/
def brokenComments : Bytes := Bytes.ofString <|
  "package a /* p\n*/\n\nimport \"net/http\"\n\n" ++
  "func h(w http.ResponseWriter, r *http.Request) \x7b /* x\n*/\n\tg(\x60y\x60) // z\n\x7d\n"

/-- The raw string of that file stands in its new text. -/
theorem updateFile_strikes_brokenComments :
    ∃ f u m' out, SourceFile.read? ⟨"", ["a.go"]⟩ brokenComments = some f ∧
      updateFile (.ofPackage ⟨"a", [f]⟩) {} 0 f {} = some (u, m') ∧ u.output = .ok out ∧
      ∃ t ∈ f.root.walk, t.kind = .rawStringLiteral ∧
        ∃ before after, out = before ++ t.bytes ++ after ∧
          (before.length : Int) = t.start + Edit.shift u.plan.edits t.start := by
  have h : ((SourceFile.read? ⟨"", ["a.go"]⟩ brokenComments).bind fun f =>
      (updateFile (.ofPackage ⟨"a", [f]⟩) {} 0 f {}).map fun r =>
        decide (∃ t ∈ f.root.walk, t.kind = .rawStringLiteral ∧
          ∀ e ∈ r.1.plan.edits, ¬ e.Strikes t)) = some true := by
    decide +kernel
  obtain ⟨f, hf, h⟩ := Option.bind_eq_some_iff.mp h
  obtain ⟨⟨u, m'⟩, hu, h⟩ := Option.map_eq_some_iff.mp h
  obtain ⟨t, ht, hkind, hclear⟩ := of_decide_eq_true h
  obtain ⟨out, hout, htokens⟩ := updateFile_strikes hf hu
  obtain ⟨_, _, hstands⟩ := htokens t ht (by rw [hkind]; rfl)
  exact ⟨f, u, m', out, hf, hu, hout, t, ht, hkind, hstands (by rw [hkind]; rfl) hclear⟩

/-- The import falls inside one comment of that file and the statement that binds the context
inside the other, and neither stands in the new text. -/
theorem exists_strikes_brokenComments :
    ∃ f u m' out, SourceFile.read? ⟨"", ["a.go"]⟩ brokenComments = some f ∧
      updateFile (.ofPackage ⟨"a", [f]⟩) {} 0 f {} = some (u, m') ∧ u.output = .ok out ∧
      ∀ text ∈ ["/* p\n*/", "/* x\n*/"], ∃ t ∈ f.root.walk, t.kind = .comment ∧ t.text = text ∧
        (∃ e ∈ u.plan.edits, e.Strikes t) ∧ ¬ t.bytes <:+: out := by
  have h : ((SourceFile.read? ⟨"", ["a.go"]⟩ brokenComments).bind fun f =>
      (updateFile (.ofPackage ⟨"a", [f]⟩) {} 0 f {}).bind fun r =>
        r.1.output.toOption.map fun out =>
          decide (∀ text ∈ ["/* p\n*/", "/* x\n*/"], ∃ t ∈ f.root.walk, t.kind = .comment ∧
            t.text = text ∧ (∃ e ∈ r.1.plan.edits, e.Strikes t) ∧ ¬ t.bytes <:+: out)) =
      some true := by
    decide +kernel
  obtain ⟨f, hf, h⟩ := Option.bind_eq_some_iff.mp h
  obtain ⟨⟨u, m'⟩, hu, h⟩ := Option.bind_eq_some_iff.mp h
  obtain ⟨out, hout, h⟩ := Option.map_eq_some_iff.mp h
  refine ⟨f, u, m', out, hf, hu, ?_, of_decide_eq_true h⟩
  cases hresult : u.output with
  | ok bytes =>
    rw [hresult] at hout
    exact congrArg Except.ok (Option.some.inj hout)
  | error o =>
    rw [hresult] at hout
    cases hout

end CtxThread
