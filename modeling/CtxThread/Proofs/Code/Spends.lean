import CtxThread.Proofs.Tokens

/-!
# What rules take off the tokens

A rule takes tokens off the front and leaves every one of them in the tree, line ends aside. Which
tokens those can be is told by the terminals of the rule.

## Main definitions

- `Token.IsLeaf`: a token that has become a node
- `Rule.only`: the rule has no other terminals and calls no other nonterminals than the given ones
- `Rule.Spends`: what is left out between two states has become a node

## Main statements

- `Rule.run_spends`: what a rule takes off the tokens
- `parse?_leaf`: every token of a text that parses is a node of its tree
-/

namespace CtxThread.Code

/-- The node has the place of the token and a kind that suits it. Only comments become comments,
and only signs become signs. -/
structure Token.Becomes (tok : Token) (y : Tree) : Prop where
  start : y.start = tok.start
  stop : y.stop = tok.stop
  suits : tok.lexeme.suits y.kind = true
  comment : y.kind = .comment → tok.lexeme = .comment
  sign : ∀ g, y.kind = .sign g → tok.lexeme = .sign g

/-- The token has become a node of one of the trees. -/
def Token.IsLeaf (ts : List Tree) (tok : Token) : Prop :=
  ∃ x ∈ ts, x.kind ≠ .newline ∧ ∃ y ∈ x.walk, tok.Becomes y

/-- The kinds of signs. -/
def Kind.isSign : Kind → Bool
  | .sign _ => true
  | _ => false

namespace Terminal

variable {l : Lexeme} {k : Kind}

theorem eq_sign_of_accept? {g : Sign} (h : (Terminal.sign g).accept? l = some k) :
    l = .sign g := by
  cases l with
  | sign g' => simp only [accept?, Option.ite_none_right_eq_some] at h; rw [h.1]
  | _ => cases h

theorem eq_literal_of_accept? {k' : Kind} (h : (Terminal.literal k').accept? l = some k) :
    l = .literal k' := by
  cases l with
  | literal k'' => simp only [accept?, Option.ite_none_right_eq_some] at h; rw [h.1]
  | _ => cases h

theorem eq_word_of_accept? {k' : Kind} (h : (Terminal.name k').accept? l = some k) :
    ∃ w, l = .word w := by
  cases l with
  | word w => exact ⟨w, rfl⟩
  | _ => cases h

/-- A terminal that makes signs of signs only. -/
def keepsSigns : Terminal → Bool
  | .sign _ => true
  | .name k | .word _ k | .literal k => !k.isSign

/-- A terminal whose tokens become nodes of its kind, which are no comments, and no signs unless the
tokens are. -/
def isExact (t : Terminal) : Bool := t.isHonest && t.kind ≠ .comment && t.keepsSigns

theorem eq_sign_of_isExact {t : Terminal} (ht : t.isExact = true) (h : t.accept? l = some t.kind)
    {g : Sign} (hk : t.kind = .sign g) : l = .sign g := by
  cases t with
  | sign s =>
    obtain rfl : s = g := Kind.sign.inj hk
    exact eq_sign_of_accept? h
  | name k | word w k | literal k =>
    obtain rfl : k = .sign g := hk
    simp [isExact, keepsSigns, Kind.isSign] at ht

end Terminal

/-- A comment or a line end. -/
def Lexeme.isGap (l : Lexeme) : Bool := l = .comment || l = .newline

namespace Rule

variable {ν : Type}

/-! ## Single steps -/

/-- The comments among the tokens as nodes. -/
def commentTrees (ts : List Token) : List Tree :=
  (ts.filter (·.lexeme = .comment)).map (·.tree .comment)

theorem skipBlanks_eq (out : List Tree) (ts : List Token) :
    skipBlanks out ts = ⟨out ++ commentTrees (ts.takeWhile (·.lexeme.isGap)),
      ts.dropWhile (·.lexeme.isGap)⟩ := by
  induction ts generalizing out with
  | nil => simp [skipBlanks, commentTrees]
  | cons t ts ih =>
    rw [skipBlanks]
    by_cases hcomment : t.lexeme = .comment
    · rw [if_pos hcomment, ih]
      simp [Lexeme.isGap, hcomment, commentTrees]
    · rw [if_neg hcomment]
      by_cases hnewline : t.lexeme = .newline
      · rw [if_pos hnewline, ih]
        simp [Lexeme.isGap, hnewline, commentTrees]
      · simp [Lexeme.isGap, hnewline, hcomment, commentTrees]

theorem skipComments_eq (out : List Tree) (ts : List Token) :
    skipComments out ts = ⟨out ++ commentTrees (ts.takeWhile (·.lexeme = .comment)),
      ts.dropWhile (·.lexeme = .comment)⟩ := by
  induction ts generalizing out with
  | nil => simp [skipComments, commentTrees]
  | cons t ts ih =>
    rw [skipComments]
    by_cases hcomment : t.lexeme = .comment
    · rw [if_pos hcomment, ih]
      simp [hcomment, commentTrees]
    · rw [if_neg hcomment]
      simp [hcomment, commentTrees]

/-- A token is taken behind comments and line ends. -/
theorem takeToken_split {t : Terminal} {s s' : State} (h : takeToken t s = some s') :
    ∃ gap tok, s.rest = gap ++ tok :: s'.rest ∧ (∀ g ∈ gap, g.lexeme.isGap = true) ∧
      t.accept? tok.lexeme = some t.kind ∧
      s'.out = s.out ++ (commentTrees gap ++ [tok.tree t.kind]) := by
  unfold takeToken at h
  rw [skipBlanks_eq] at h
  dsimp only at h
  split at h
  · cases h
  · next tok rest hrest =>
    obtain ⟨k, hk, rfl⟩ := Option.map_eq_some_iff.mp h
    obtain ⟨rfl, _⟩ := Terminal.accept?_cases hk
    refine ⟨s.rest.takeWhile (·.lexeme.isGap), tok, ?_,
      fun g hg => List.mem_takeWhile_imp (p := fun g : Token => g.lexeme.isGap) hg, hk,
      List.append_assoc ..⟩
    rw [← hrest, List.takeWhile_append_dropWhile]

/-- A token that fits is taken behind comments and line ends. -/
theorem takeToken_behind {t : Terminal} {gap : List Token} {tok : Token} {k : Kind}
    (hgap : ∀ g ∈ gap, g.lexeme.isGap = true) (h : t.accept? tok.lexeme = some k)
    (out : List Tree) (rest : List Token) :
    takeToken t ⟨out, gap ++ tok :: rest⟩ =
      some ⟨out ++ (commentTrees gap ++ [tok.tree k]), rest⟩ := by
  have htok : tok.lexeme.isGap = false := by
    cases hl : tok.lexeme with
    | comment | newline => rw [hl] at h; cases t <;> cases h
    | _ => rfl
  have htake : (gap ++ tok :: rest).takeWhile (·.lexeme.isGap) = gap := by
    rw [List.takeWhile_append_of_pos hgap, List.takeWhile_cons_of_neg (by simp [htok]),
      List.append_nil]
  have hdrop : (gap ++ tok :: rest).dropWhile (·.lexeme.isGap) = tok :: rest := by
    rw [List.dropWhile_append_of_pos hgap, List.dropWhile_cons_of_neg (by simp [htok])]
  rw [takeToken, skipBlanks_eq]
  simp only [htake, hdrop, h, Option.map_some, List.append_assoc]

/-- A line end is taken behind comments. -/
theorem takeNewline_split {s s' : State} (h : takeNewline s = some s') :
    ∃ gap tok, s.rest = gap ++ tok :: s'.rest ∧ (∀ g ∈ gap, g.lexeme = .comment) ∧
      tok.lexeme = .newline ∧ s'.out = s.out ++ (commentTrees gap ++ [tok.tree .newline]) := by
  unfold takeNewline at h
  rw [skipComments_eq] at h
  dsimp only at h
  split at h
  · cases h
  · next tok rest hrest =>
    simp only [Option.ite_none_right_eq_some, Option.some.injEq] at h
    obtain ⟨hnewline, rfl⟩ := h
    refine ⟨s.rest.takeWhile (·.lexeme = .comment), tok, ?_, fun g hg => ?_, hnewline,
      List.append_assoc ..⟩
    · rw [← hrest, List.takeWhile_append_dropWhile]
    · simpa using List.mem_takeWhile_imp (p := fun g : Token => decide (g.lexeme = .comment)) hg

end Rule

namespace Token.IsLeaf

variable {tok : Token} {ts us : List Tree}

theorem append_left (h : tok.IsLeaf ts) (us : List Tree) : tok.IsLeaf (ts ++ us) := by
  obtain ⟨x, hx, h⟩ := h
  exact ⟨x, List.mem_append_left _ hx, h⟩

theorem append_right (h : tok.IsLeaf us) (ts : List Tree) : tok.IsLeaf (ts ++ us) := by
  obtain ⟨x, hx, h⟩ := h
  exact ⟨x, List.mem_append_right _ hx, h⟩

theorem of_tree {k : Kind} (h : tok.lexeme.suits k = true) (hk : k ≠ .newline)
    (hcomment : k = .comment → tok.lexeme = .comment)
    (hsign : ∀ g, k = .sign g → tok.lexeme = .sign g) (hmem : tok.tree k ∈ ts) : tok.IsLeaf ts :=
  ⟨tok.tree k, hmem, hk, _, Tree.mem_walk_self _, rfl, rfl, h, hcomment, hsign⟩

theorem of_comment {gap : List Token} (h : tok.lexeme = .comment) (hmem : tok ∈ gap) :
    tok.IsLeaf (Rule.commentTrees gap) :=
  of_tree (k := .comment) (by rw [h]; rfl) (by decide) (fun _ => h) (fun _ hk => by cases hk)
    (List.mem_map_of_mem (List.mem_filter.mpr ⟨hmem, by simpa using h⟩))

theorem mark (h : tok.IsLeaf ts) (r : Role) : tok.IsLeaf (Rule.mark r ts) := by
  obtain ⟨x, hx, hk, y, hy, hspan⟩ := h
  by_cases hfree : x.kind = .comment ∨ x.kind = .newline
  · exact ⟨x, List.mem_map.mpr ⟨x, hx, if_pos hfree⟩, hk, y, hy, hspan⟩
  · refine ⟨{ x with role := some r }, List.mem_map.mpr ⟨x, hx, if_neg hfree⟩, hk, ?_⟩
    rcases Tree.mem_walk_iff.mp hy with rfl | hbelow
    · exact ⟨_, Tree.mem_walk_self _, hspan.start, hspan.stop, hspan.suits, hspan.comment,
        hspan.sign⟩
    · exact ⟨y, Tree.mem_walk_iff.mpr (.inr hbelow), hspan⟩

theorem build (h : tok.IsLeaf ts) {k : Kind} (hk : k ≠ .newline) :
    tok.IsLeaf (Rule.build k ts) := by
  obtain ⟨x, hx, hxk, y, hy, hspan⟩ := h
  have hsplit := List.takeWhile_append_dropWhile (p := fun t : Tree => decide (t.kind = .comment))
    (l := ts)
  rw [← hsplit] at hx
  unfold Rule.build
  dsimp only
  rcases List.mem_append.mp hx with hx | hx
  · have hbefore : tok.IsLeaf (ts.takeWhile (·.kind = .comment)) := ⟨x, hx, hxk, y, hy, hspan⟩
    split
    · exact hbefore.append_left _
    · exact hbefore
  · split
    · refine ⟨_, List.mem_append_right _ (List.mem_singleton_self _), hk, y, ?_, hspan⟩
      exact Tree.mem_walk_iff.mpr (.inr ⟨x, List.mem_filter.mpr ⟨hx, by simpa using hxk⟩, hy⟩)
    · next hnone =>
      have hown := List.ne_nil_of_mem hx
      exact absurd (List.getLast?_eq_some_getLast hown)
        (hnone _ _ (List.head?_eq_some_head hown))

end Token.IsLeaf

namespace Rule

variable {ν : Type}

/-- The rule has terminals of the class `p` only, calls nonterminals of the class `n` only and
builds no hidden node. -/
def only (p : Terminal → Bool) (n : ν → Bool) : Rule ν → Bool
  | .token t => p t
  | .seq a b | .alt a b => a.only p n && b.only p n
  | .many a | .group a | .role _ a => a.only p n
  | .node k a | .wrap k _ a => k ≠ .newline && a.only p n
  | .call m => n m
  | .done | .newline | .sameLine | .absent _ => true

/-- The token is a comment or a line end or fits one of the terminals. -/
def Fits (p : Terminal → Bool) (tok : Token) : Prop :=
  tok.lexeme.isGap = true ∨ ∃ t, p t = true ∧ t.accept? tok.lexeme = some t.kind

/-- Between the two states tokens are taken that fit the terminals. All of them but line ends have
become nodes, and all nodes stay. -/
def Spends (p : Terminal → Bool) (s s' : State) : Prop :=
  ∃ ws, s.rest = ws ++ s'.rest ∧ (∀ tok ∈ ws, Fits p tok) ∧
    (∀ tok ∈ ws, tok.lexeme ≠ .newline → tok.IsLeaf s'.out) ∧
    ∀ tok : Token, tok.IsLeaf s.out → tok.IsLeaf s'.out

namespace Spends

variable {p : Terminal → Bool} {s m s' : State}

theorem refl (p : Terminal → Bool) (s : State) : Spends p s s :=
  ⟨[], rfl, List.forall_mem_nil _, fun _ h => absurd h List.not_mem_nil, fun _ h => h⟩

theorem trans (h : Spends p s m) (h' : Spends p m s') : Spends p s s' := by
  obtain ⟨ws, hrest, hfits, hleaf, hstay⟩ := h
  obtain ⟨ws', hrest', hfits', hleaf', hstay'⟩ := h'
  refine ⟨ws ++ ws', by rw [hrest, hrest', List.append_assoc], ?_, ?_, fun t ht =>
    hstay' t (hstay t ht)⟩
  · exact fun t ht => (List.mem_append.mp ht).elim (hfits t) (hfits' t)
  · exact fun t ht hl => (List.mem_append.mp ht).elim (fun ht => hstay' t (hleaf t ht hl))
      (fun ht => hleaf' t ht hl)

/-- What is taken on its own and becomes other nodes. -/
theorem under (h : Spends p ⟨[], s.rest⟩ m) {out : List Tree}
    (hold : ∀ tok : Token, tok.IsLeaf s.out → tok.IsLeaf out)
    (hnew : ∀ tok : Token, tok.IsLeaf m.out → tok.IsLeaf out) : Spends p s ⟨out, m.rest⟩ := by
  obtain ⟨ws, hrest, hfits, hleaf, _⟩ := h
  exact ⟨ws, hrest, hfits, fun t ht hl => hnew t (hleaf t ht hl), hold⟩

/-- What is taken on its own and becomes nodes behind those before. -/
theorem append (h : Spends p ⟨[], s.rest⟩ m) {xs : List Tree}
    (hnew : ∀ tok : Token, tok.IsLeaf m.out → tok.IsLeaf xs) :
    Spends p s ⟨s.out ++ xs, m.rest⟩ :=
  h.under (fun _ ht => ht.append_left xs) fun t ht => (hnew t ht).append_right _

end Spends

variable {p : Terminal → Bool} (hp : ∀ t, p t = true → t.isExact = true)

include hp

theorem takeToken_spends {t : Terminal} (ht : p t = true) {s s' : State}
    (h : takeToken t s = some s') : Spends p s s' := by
  obtain ⟨gap, tok, hrest, hgap, haccept, hout⟩ := takeToken_split h
  obtain ⟨hhonest, hne⟩ := Bool.and_eq_true_iff.mp (Bool.and_eq_true_iff.mp (hp t ht)).1
  have hsuits := Terminal.suits hhonest haccept
  refine ⟨gap ++ [tok], by simp [hrest], ?_, ?_, fun x hx => hout ▸ hx.append_left _⟩
  · intro x hx
    rcases List.mem_append.mp hx with hx | hx
    · exact .inl (hgap x hx)
    · obtain rfl := List.mem_singleton.mp hx
      exact .inr ⟨t, ht, haccept⟩
  · intro x hx hnewline
    rw [hout]
    refine Token.IsLeaf.append_right ?_ _
    rcases List.mem_append.mp hx with hx | hx
    · have hcomment : x.lexeme = .comment := by
        have := hgap x hx
        simpa [Lexeme.isGap, hnewline] using this
      exact (Token.IsLeaf.of_comment hcomment hx).append_left _
    · obtain rfl := List.mem_singleton.mp hx
      refine Token.IsLeaf.of_tree hsuits ?_ (fun hk => absurd hk (of_decide_eq_true hne))
        (fun g hk => Terminal.eq_sign_of_isExact (hp t ht) haccept hk)
        (List.mem_append_right _ (List.mem_singleton_self _))
      rintro hk
      rw [hk] at hsuits
      have := Lexeme.isToken_of_suits hsuits
      cases this

omit hp in
theorem takeNewline_spends {s s' : State} (h : takeNewline s = some s') : Spends p s s' := by
  obtain ⟨gap, tok, hrest, hgap, hnewline, hout⟩ := takeNewline_split h
  refine ⟨gap ++ [tok], by simp [hrest], ?_, ?_, fun x hx => hout ▸ hx.append_left _⟩
  · intro x hx
    left
    rcases List.mem_append.mp hx with hx | hx
    · simp [Lexeme.isGap, hgap x hx]
    · simp [Lexeme.isGap, List.mem_singleton.mp hx, hnewline]
  · intro x hx hne
    rcases List.mem_append.mp hx with hx | hx
    · rw [hout]
      exact ((Token.IsLeaf.of_comment (hgap x hx) hx).append_left _).append_right _
    · rw [List.mem_singleton.mp hx] at hne
      exact absurd hnewline hne

/-- A rule takes tokens that fit its terminals or those of the nonterminals it calls, and they
become nodes. -/
theorem run_spends {n : ν → Bool} {call : ν → List Token → Option State}
    (hcall : ∀ m us s, n m = true → call m us = some s → Spends p ⟨[], us⟩ s) {a : Rule ν}
    (ha : a.only p n = true) {s s' : State} (h : run call a s = some s') : Spends p s s' := by
  induction a generalizing s s' with
  | done => cases h; exact .refl p s
  | token t => exact takeToken_spends hp ha h
  | newline => exact takeNewline_spends h
  | sameLine =>
    simp only [run, Option.ite_none_right_eq_some, Option.some.injEq] at h
    exact h.2 ▸ .refl p s
  | absent a _ =>
    simp only [run, Option.ite_none_left_eq_some, Option.some.injEq] at h
    exact h.2 ▸ .refl p s
  | seq a b iha ihb =>
    obtain ⟨ha, hb⟩ := Bool.and_eq_true_iff.mp ha
    obtain ⟨m, hm, h⟩ := Option.bind_eq_some_iff.mp h
    exact (iha ha hm).trans (ihb hb h)
  | alt a b iha ihb =>
    obtain ⟨ha, hb⟩ := Bool.and_eq_true_iff.mp ha
    simp only [run] at h
    split at h
    · next m hm => cases h; exact iha ha hm
    · exact ihb hb h
  | many a iha =>
    cases h
    exact iterate_keeps (P := fun m => Spends p s m) (fun _ _ hm hstep => hm.trans (iha ha hstep)) _
      (.refl p s)
  | call m =>
    obtain ⟨r, hr, rfl⟩ := Option.map_eq_some_iff.mp h
    exact (hcall m _ r ha hr).append fun _ ht => ht
  | group a iha =>
    obtain ⟨m, hm, rfl⟩ := Option.map_eq_some_iff.mp h
    exact (iha ha hm).append fun _ ht => ht
  | node k a iha =>
    obtain ⟨m, hm, rfl⟩ := Option.map_eq_some_iff.mp h
    obtain ⟨hk, ha⟩ := Bool.and_eq_true_iff.mp ha
    exact (iha ha hm).append fun _ ht => ht.build (of_decide_eq_true hk)
  | wrap k r a iha =>
    obtain ⟨m, hm, rfl⟩ := Option.map_eq_some_iff.mp h
    obtain ⟨hk, ha⟩ := Bool.and_eq_true_iff.mp ha
    refine (iha ha hm).under (fun _ ht => ?_)
      fun _ ht => (ht.append_right _).build (of_decide_eq_true hk)
    cases r with
    | none => exact (ht.append_left _).build (of_decide_eq_true hk)
    | some r => exact ((ht.mark r).append_left _).build (of_decide_eq_true hk)
  | role r a iha =>
    obtain ⟨m, hm, rfl⟩ := Option.map_eq_some_iff.mp h
    exact (iha ha hm).append fun _ ht => ht.mark r

/-- So does a nonterminal. -/
theorem derive_spends {grammar : ν → Rule ν} {n : ν → Bool}
    (hn : ∀ m, n m = true → (grammar m).only p n = true) (fuel : Nat) (m : ν) (us : List Token)
    (s : State) (hm : n m = true) (h : derive grammar fuel m us = some s) :
    Spends p ⟨[], us⟩ s := by
  induction fuel generalizing m us s with
  | zero => cases h
  | succ fuel ih => exact run_spends hp ih (hn m hm) h

end Rule

namespace Grammar

open Rule

/-- All terminals of the grammar are exact. -/
theorem grammar_only (m : Nonterminal) :
    (grammar m).only Terminal.isExact (fun _ => true) = true := by
  have hlisted : ∀ m ∈ nonterminals,
      (grammar m).only Terminal.isExact (fun _ => true) = true := by
    decide +kernel
  obtain ⟨m', hm', hgrammar, _⟩ := exists_mem_nonterminals m
  exact hgrammar ▸ hlisted m' hm'

end Grammar

open Rule Grammar

/-- No token of a text that parses is a stray byte, and every one but line ends is a node. -/
theorem parse?_leaf {src : Bytes} {root : Tree} (h : parse? src = some root) {tok : Token}
    (htok : tok ∈ Token.scan src) :
    tok.lexeme ≠ .stray ∧ (tok.lexeme ≠ .newline → ∃ y ∈ root.walk, tok.Becomes y) := by
  obtain ⟨s, hs, hrest⟩ := Option.bind_eq_some_iff.mp h
  simp only [skipBlanks_eq, Option.ite_none_right_eq_some, Option.some.injEq,
    List.isEmpty_iff] at hrest
  obtain ⟨hnone, rfl⟩ := hrest
  obtain ⟨ws, hws, hfits, hleaf, -⟩ := derive_spends (p := Terminal.isExact) (fun _ ht => ht)
    (fun m _ => grammar_only m) _ _ _ _ rfl hs
  dsimp only at hws
  have hrest : s.rest.takeWhile (·.lexeme.isGap) = s.rest := by
    rw [← List.append_nil (s.rest.takeWhile _), ← hnone, List.takeWhile_append_dropWhile]
  rw [hrest]
  have hbelow : tok.lexeme ≠ .newline → tok.IsLeaf (s.out ++ commentTrees s.rest) →
      ∃ y ∈ (fileTree src.length (s.out ++ commentTrees s.rest)).walk, tok.Becomes y := by
    rintro - ⟨x, hx, hk, y, hy, hspan⟩
    refine ⟨y, Tree.mem_walk_iff.mpr (.inr ⟨x, ?_, hy⟩), hspan⟩
    exact List.mem_filter.mpr ⟨hx, by simpa using hk⟩
  rw [hws] at htok
  rcases List.mem_append.mp htok with htok | htok
  · refine ⟨?_, fun hl => hbelow hl ((hleaf tok htok hl).append_left _)⟩
    rcases hfits tok htok with hgap | ⟨t, ht, haccept⟩
    · rintro hstray
      rw [hstray] at hgap
      cases hgap
    · have := Terminal.suits (Bool.and_eq_true_iff.mp (Bool.and_eq_true_iff.mp ht).1).1 haccept
      rintro hstray
      rw [hstray] at this
      cases this
  · rw [← hrest] at htok
    have hgap : tok.lexeme.isGap = true :=
      List.mem_takeWhile_imp (p := fun g : Token => g.lexeme.isGap) htok
    rw [hrest] at htok
    refine ⟨?_, fun hl => hbelow hl (.append_right (.of_comment ?_ htok) _)⟩
    · rintro hstray
      rw [hstray] at hgap
      cases hgap
    · simpa [Lexeme.isGap, hl] using hgap

/-- An offset outside of all tokens of the tree is outside of all tokens that are scanned. -/
theorem Tree.Clear.apart {src : Bytes} {root : Tree} (h : parse? src = some root) {p : Nat}
    (hp : root.Clear p) {tok : Token} (htok : tok ∈ Token.scan src) (hl : tok.lexeme ≠ .newline) :
    p ≤ tok.start ∨ tok.stop ≤ p := by
  obtain ⟨y, hy, hstart, hstop, hsuits, -⟩ := (parse?_leaf h htok).2 hl
  have := hp y hy (Lexeme.isToken_of_suits hsuits)
  omega

end CtxThread.Code
