import CtxThread.Proofs.Code.Nesting
import CtxThread.Source

/-!
# Nodes are told apart by their keys

Different nodes of a tree can have the same span, as an expression and the list that holds nothing
but it. Two nodes of the same kind cannot, where the kind asks for a token of its own: the inner
one would have to lie on one side of that token.

## Main definitions

- `anchors`: the token or the brackets that a node of a kind is sure to have
- `Kind.isAnchored`: the kinds whose nodes are told apart by their keys

## Main statements

- `parse?_key_ne`: of two nodes that a walk visits, the keys differ
- `Site.eq_of_key_eq`: a site of a walk is known by the key of its node
-/

namespace CtxThread.Code

/-- The kinds of nodes that can be an anchor: signs, and lists in brackets. -/
def Kind.isAnchor (k : Kind) : Bool :=
  k = .argumentList || k = .literalValue || (k.isToken && !k.isNamed)

/-- The sign or the list in brackets that a node of a kind is sure to have. -/
def anchors : Table where
  admits _ _ := true
  requires
    | .callExpression => some fun m => m = ⟨some .arguments, .argumentList⟩
    | .compositeLiteral | .selectorExpression | .typeAssertionExpression | .indexExpression
    | .sliceExpression | .parenthesizedExpression | .unaryExpression =>
      some fun m => m.kind.isAnchor
    | _ => none

theorem anchors_agrees : Grammar.Agrees anchors :=
  ⟨by decide +kernel, by decide, rfl⟩

/-- The kinds whose nodes have an anchor, or are one token. -/
def Kind.isAnchored (k : Kind) : Bool := k.isToken || (anchors.requires k).isSome

namespace Tree

variable {src : Bytes} {t x c n : Tree}

/-- A node below another child than `x`, which is not empty, does not span the whole parent. -/
theorem Laid.span_ne_of_ne (ht : t.Laid src) (hx : x ∈ t.children) (hspan : x.start < x.stop)
    (hc : c ∈ t.children) (hn : n ∈ c.walk) (hne : c ≠ x) :
    t.start < n.start ∨ n.stop < t.stop := by
  have hbounds := ht.row.bounds_of_mem hx
  have hspan' := (ht.of_mem_children hc).span_le_of_mem_walk hn
  rcases ht.row.apart_of_ne hc hx hne with h | h
  · exact .inr (by omega)
  · exact .inl (by omega)

/-- The nodes below a sign or a comment are the sign or the comment. -/
theorem Laid.eq_of_isItem_eq_false (hx : x.Laid src) (hk : x.isItem = false) (hn : n ∈ x.walk) :
    n = x := by
  rcases mem_walk_iff.mp hn with rfl | ⟨c, hc, _⟩
  · rfl
  · rw [hx.shaped.leaf (.inl hk)] at hc
    cases hc

theorem isItem_of_kind_sign {s : Sign} (hk : x.kind = .sign s) : x.isItem = false := by
  simp [isItem, hk, Kind.isNamed]

/-- A list in brackets starts with a sign of one byte. -/
theorem Laid.row_of_brackets (hx : x.Laid src)
    (hk : x.kind = .argumentList ∨ x.kind = .literalValue) :
    ∃ a rest, x.children = a :: rest ∧ a.isItem = false ∧ Row (x.start + 1) rest x.stop := by
  obtain ⟨opening, closing, byte, hbyte, a, mid, b, hchildren, ha, _, hstart, _⟩ :
      ∃ opening closing byte, opening.bracket? = some byte ∧ x.Bracketed opening closing := by
    rcases hk with hk | hk
    · exact ⟨.lparen, .rparen, _, rfl, hx.shaped.parens (.inr hk)⟩
    · exact ⟨.lbrace, .rbrace, _, rfl, hx.shaped.braces (.inr hk)⟩
  have hstop := ((hx.of_mem_children (hchildren ▸ List.mem_cons_self)).bracket ha hbyte).1
  have hrow := hx.row
  rw [hchildren] at hrow
  exact ⟨a, mid ++ [b], hchildren, isItem_of_kind_sign ha, hrow.2.2.mono (by omega) le_rfl⟩

/-- An item below a list in brackets starts after the bracket. -/
theorem Laid.start_lt_of_brackets (hx : x.Laid src)
    (hk : x.kind = .argumentList ∨ x.kind = .literalValue) (hn : n ∈ x.walk) (hne : n ≠ x)
    (hitem : n.isItem = true) : x.start < n.start := by
  obtain ⟨a, rest, hchildren, ha, hrow⟩ := hx.row_of_brackets hk
  obtain ⟨c, hc, hn⟩ := (mem_walk_iff.mp hn).resolve_left hne
  have hcLaid := hx.of_mem_children hc
  have hstart := (hcLaid.span_le_of_mem_walk hn).1
  rw [hchildren] at hc
  rcases List.mem_cons.mp hc with rfl | hc
  · rw [hcLaid.eq_of_isItem_eq_false ha hn, ha] at hitem
    cases hitem
  · have hbounds := hrow.bounds_of_mem hc
    omega

theorem isAnchor_of_requires {k : Kind} {p : Mark → Bool} {m : Mark}
    (h : anchors.requires k = some p) (hp : p m = true) : m.kind.isAnchor = true := by
  simp only [anchors] at h
  split at h <;> cases h
  · rw [of_decide_eq_true hp]
    rfl
  all_goals exact hp

theorem isBuilt_of_requires {k : Kind} {p : Mark → Bool} (h : anchors.requires k = some p) :
    k.isBuilt = true ∧ (k.isNamed && k ≠ .comment) = true ∧ k.isAnchor = false := by
  simp only [anchors] at h
  split at h <;> first | exact ⟨rfl, rfl, rfl⟩ | cases h

/-- An anchored node that is no token has an anchor, which is not empty. -/
theorem Laid.exists_anchor (ht : t.Laid src) (hform : ∀ m ∈ t.walk, m.Formed anchors)
    (hk : t.kind.isAnchored = true) (htoken : t.kind.isToken = false) :
    t.isItem = true ∧ t.kind.isAnchor = false ∧ ∃ x ∈ t.children, x.start < x.stop ∧
      (x.isItem = false ∨ x.kind = .argumentList ∨ x.kind = .literalValue) := by
  rw [Kind.isAnchored, htoken, Bool.false_or] at hk
  obtain ⟨p, hp⟩ := Option.isSome_iff_exists.mp hk
  obtain ⟨hbuilt, hitem, hself⟩ := isBuilt_of_requires hp
  obtain ⟨x, hx, hpx⟩ := (hform t t.mem_walk_self).requires hbuilt p hp
  refine ⟨hitem, hself, x, hx, ?_⟩
  have hanchor : x.kind.isAnchor = true := isAnchor_of_requires hp hpx
  simp only [Kind.isAnchor, Bool.or_eq_true, decide_eq_true_eq, Bool.and_eq_true,
    Bool.not_eq_true'] at hanchor
  rcases hanchor with hkx | ⟨htokenx, hnamed⟩
  · obtain ⟨_, _, _, _, hrow⟩ := (ht.of_mem_children hx).row_of_brackets hkx
    have hspan := hrow.le
    exact ⟨by omega, .inr hkx⟩
  · have hxform := hform x (mem_walk_iff.mpr (.inr ⟨x, hx, x.mem_walk_self⟩))
    exact ⟨(hxform.token htokenx).1, .inl (by simp [isItem, hnamed])⟩

/-- An anchored node is not empty. -/
theorem Laid.start_lt_stop (ht : t.Laid src) (hform : ∀ m ∈ t.walk, m.Formed anchors)
    (hk : t.kind.isAnchored = true) : t.start < t.stop := by
  cases htoken : t.kind.isToken with
  | true => exact ((hform t t.mem_walk_self).token htoken).1
  | false =>
    obtain ⟨_, _, x, hx, hspan, _⟩ := ht.exists_anchor hform hk htoken
    have hbounds := ht.row.bounds_of_mem hx
    omega

/-- A node of the same kind below an anchored one has another span. -/
theorem Laid.span_ne (ht : t.Laid src) (hform : ∀ m ∈ t.walk, m.Formed anchors)
    (hk : t.kind.isAnchored = true) (hc : c ∈ t.children) (hn : n ∈ c.walk)
    (hkind : n.kind = t.kind) : t.start < n.start ∨ n.stop < t.stop := by
  cases htoken : t.kind.isToken with
  | true =>
    -- the nodes in a token are no tokens
    obtain ⟨hleaf, hinner⟩ := ((hform t t.mem_walk_self).token htoken).2 c hc
    rcases mem_walk_iff.mp hn with rfl | ⟨d, hd, _⟩
    · rw [← hkind, Kind.isToken_of_isInner hinner] at htoken
      cases htoken
    · rw [hleaf] at hd
      cases hd
  | false =>
    obtain ⟨hitem, hself, x, hx, hspan, hanchor⟩ := ht.exists_anchor hform hk htoken
    have hnitem : n.isItem = true := by rwa [isItem, hkind]
    have hxLaid := ht.of_mem_children hx
    by_cases hcx : c = x
    · subst hcx
      rcases hanchor with hsign | hbrackets
      · rw [hxLaid.eq_of_isItem_eq_false hsign hn, hsign] at hnitem
        cases hnitem
      · have hne : n ≠ c := by
          rintro rfl
          rw [← hkind] at hself
          rcases hbrackets with hb | hb <;> rw [hb] at hself <;> cases hself
        have hstart := (ht.row.bounds_of_mem hc).1
        have := hxLaid.start_lt_of_brackets hbrackets hn hne hnitem
        exact .inl (by omega)
    · exact ht.span_ne_of_ne hx hspan hc hn hcx

end Tree

/-- Of two nodes that a walk over a parsed tree visits, those of the same anchored kind have
different keys. -/
theorem parse?_key_ne {src : Bytes} {t : Tree} (h : parse? src = some t) :
    t.walk.Pairwise fun a b => a.kind.isAnchored = true → a.key ≠ b.key := by
  have hlaid := parse?_laid h
  refine (List.Pairwise.and_mem.mp hlaid.pairwise_walk).imp ?_
  rintro a b ⟨ha, _, hab⟩ hk hkey
  have haLaid := hlaid.of_mem_walk ha
  have hform : ∀ m ∈ a.walk, m.Formed anchors :=
    fun m hm => parse?_formed anchors_agrees h (Tree.mem_walk_trans ha hm)
  obtain ⟨hstart, hstop, hkind⟩ := Tree.Key.mk.inj hkey
  rcases hab with hafter | ⟨c, hc, hb⟩
  · have := haLaid.start_lt_stop hform hk
    omega
  · have := haLaid.span_ne hform hk hc hb hkind.symm
    omega

/-- A site of a walk over a parsed tree is known by the key of its node. -/
theorem Site.eq_of_key_eq {src : Bytes} {t : Tree} (h : parse? src = some t) {a b : Site}
    (ha : a ∈ (Site.root t).walk) (hb : b ∈ (Site.root t).walk)
    (hk : a.node.kind.isAnchored = true) (hkey : a.node.key = b.node.key) : a = b := by
  by_contra hne
  have hpairwise : (Site.root t).walk.Pairwise fun a b =>
      a.node.kind.isAnchored = true → a.node.key ≠ b.node.key :=
    List.pairwise_map.mp (parse?_key_ne h)
  have hsymm : (Site.root t).walk.Pairwise fun a b =>
      a.node.key = b.node.key → a.node.kind.isAnchored = false := by
    refine hpairwise.imp ?_
    intro a b hab hkey
    by_contra hk
    exact hab (Bool.eq_true_of_not_eq_false hk) hkey
  have : Std.Symm fun a b : Site =>
      a.node.key = b.node.key → a.node.kind.isAnchored = false := by
    refine ⟨fun a b hab hkey => ?_⟩
    rw [show b.node.kind = a.node.kind from congrArg Tree.Key.kind hkey]
    exact hab hkey.symm
  rw [hsymm.forall ha hb hne hkey] at hk
  cases hk

end CtxThread.Code
