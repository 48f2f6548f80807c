import CtxThread.Code.Rule
import CtxThread.Proofs.Code.Scan
import Mathlib.Data.List.TakeWhile

/-!
# What running a rule builds

Whatever rules do with tokens that lie over a text, the nodes they build lie over it too, as long
as the rules respect a few conditions that can be read off them: a part is only given to nodes of
a kind that can play it, a node that has to be in brackets is built by a rule that starts and ends
with them, and a declaration of a function by one that adds a list of parameters.

## Main definitions

- `Rule.Yields`: the kinds of the nodes that a rule adds
- `Rule.Opens`, `Rule.Closes`: the sign that a rule starts or ends with
- `Rule.Lists`: the rule adds a list of parameters
- `Rule.Sound`: the conditions on a rule
- `Rule.State.Good`: the nodes built so far and the tokens left lie over the text

## Main statements

- `Rule.run_good`: running a sound rule keeps a state good
- `Rule.derive_good`: so does running a nonterminal of a grammar of sound rules
-/

namespace CtxThread.Code

/-- The kinds of nodes that are built of any nodes, or of one token. -/
def Kind.isPlain (k : Kind) : Bool :=
  k.isNamed && k ≠ .comment && k ≠ .block && k ≠ .literalValue && k ≠ .parameterList &&
    k ≠ .argumentList && k ≠ .functionDeclaration && k ≠ .methodDeclaration

namespace Terminal

/-- The kind of node that a token becomes under a terminal. -/
def kind : Terminal → Kind
  | .sign s => .sign s
  | .name k => k
  | .word _ k => k
  | .literal k => k

/-- A terminal whose nodes have their shape. -/
def Sound : Terminal → Prop
  | .sign _ => True
  | .name k => k.isPlain = true
  | .word _ k => k.isPlain = true
  | .literal k => k.isPlain = true ∧ k ≠ .fieldIdentifier

/-- What a token is that a terminal accepts, and what it becomes. -/
theorem accept?_cases {t : Terminal} {l : Lexeme} {k : Kind} (h : t.accept? l = some k) :
    k = t.kind ∧ ((∃ s, t = .sign s ∧ l = .sign s) ∨ (∃ k', t = .literal k') ∨
      ((∀ k', l ≠ .literal k') ∧ ∀ s, t ≠ .sign s)) := by
  cases t <;> cases l <;> simp only [accept?, reduceCtorEq] at h
  all_goals
    simp_all only [kind, Option.some.injEq, Option.ite_none_right_eq_some]
    simp

end Terminal

namespace Rule

variable {ν : Type}

/-- Every node that the rule adds is a comment, hidden, or of a kind with the property `K`, where
the nodes of a nonterminal `n` are of kinds with the property `spec n`. -/
def Yields (spec : ν → Kind → Prop) (K : Kind → Prop) : Rule ν → Prop
  | .done => True
  | .token t => K t.kind
  | .newline => True
  | .sameLine => True
  | .absent _ => True
  | .seq a b => a.Yields spec K ∧ b.Yields spec K
  | .alt a b => a.Yields spec K ∧ b.Yields spec K
  | .many a => a.Yields spec K
  | .call n => ∀ k, spec n k → K k
  | .group a => a.Yields spec K
  | .node k _ => K k
  | .wrap k _ _ => K k
  | .role _ a => a.Yields spec K

/-- The rule only appends to the nodes that are there. -/
def Appends : Rule ν → Prop
  | .seq a b => a.Appends ∧ b.Appends
  | .alt a b => a.Appends ∧ b.Appends
  | .many a => a.Appends
  | .wrap _ _ _ => False
  | _ => True

/-- The rule adds nothing. -/
def Silent : Rule ν → Prop
  | .done => True
  | .sameLine => True
  | _ => False

/-- The first node that the rule adds, comments aside, is the sign `g`. -/
def Opens (g : Sign) : Rule ν → Prop
  | .token t => t = .sign g
  | .seq a b => (a.Silent ∧ b.Opens g) ∨ (a.Opens g ∧ b.Appends)
  | _ => False

/-- The last node that the rule adds is the sign `g`. -/
def Closes (g : Sign) : Rule ν → Prop
  | .token t => t = .sign g
  | .seq _ b => b.Closes g
  | _ => False

/-- The nonterminal `n` stands for lists of parameters. -/
def IsList (spec : ν → Kind → Prop) (n : ν) : Prop := ∀ k, spec n k → k = .parameterList

/-- The rule adds a list of parameters that plays its part. -/
def Lists (spec : ν → Kind → Prop) : Rule ν → Prop
  | .role r (.call n) => r = .parameters ∧ IsList spec n
  | .seq a b => (a.Lists spec ∧ b.Appends) ∨ b.Lists spec
  | _ => False

/-- What `a` adds can be the children of a node of kind `k`. -/
structure Fills (spec : ν → Kind → Prop) (k : Kind) (a : Rule ν) : Prop where
  isItem : (k.isNamed && k ≠ .comment) = true
  inner : k ≠ .fieldIdentifier
  braces : k = .block ∨ k = .literalValue → a.Opens .lbrace ∧ a.Closes .rbrace
  parens : k = .parameterList ∨ k = .argumentList → a.Opens .lparen ∧ a.Closes .rparen
  parameters : k.isFuncDecl = true → a.Lists spec

/-- The conditions on a rule under which it builds nodes that have their shape. -/
@[simp] def Sound (spec : ν → Kind → Prop) : Rule ν → Prop
  | .done => True
  | .token t => t.Sound
  | .newline => True
  | .sameLine => True
  | .absent _ => True
  | .seq a b => a.Sound spec ∧ b.Sound spec
  | .alt a b => a.Sound spec ∧ b.Sound spec
  | .many a => a.Sound spec
  | .call _ => True
  | .group a => a.Sound spec
  | .node k a => a.Sound spec ∧ Fills spec k a
  | .wrap k r a => a.Sound spec ∧ (k.isPlain = true ∧ k ≠ .fieldIdentifier) ∧
      ∀ p, r = some p → ∀ k, p.admits k = true
  | .role r a => a.Sound spec ∧ a.Yields spec fun k => r.admits k = true

/-- A node that no part is ever given to. -/
def isFree (t : Tree) : Prop := t.kind = .comment ∨ t.kind = .newline

/-! ## Single steps -/

theorem skipComments_out (out : List Tree) (ts : List Token) :
    ∃ cs, (skipComments out ts).out = out ++ cs ∧ ∀ c ∈ cs, c.kind = .comment := by
  induction ts generalizing out with
  | nil => exact ⟨[], (List.append_nil out).symm, by intro c hc; cases hc⟩
  | cons t ts ih =>
    rw [skipComments]
    split
    · obtain ⟨cs, hout, hcs⟩ := ih (out ++ [t.tree .comment])
      refine ⟨t.tree .comment :: cs, by rw [hout]; simp, ?_⟩
      intro c hc
      rcases List.mem_cons.mp hc with rfl | hc
      · rfl
      · exact hcs c hc
    · exact ⟨[], (List.append_nil out).symm, by intro c hc; cases hc⟩

theorem skipBlanks_out (out : List Tree) (ts : List Token) :
    ∃ cs, (skipBlanks out ts).out = out ++ cs ∧ ∀ c ∈ cs, c.kind = .comment := by
  induction ts generalizing out with
  | nil => exact ⟨[], (List.append_nil out).symm, by intro c hc; cases hc⟩
  | cons t ts ih =>
    rw [skipBlanks]
    split
    · obtain ⟨cs, hout, hcs⟩ := ih (out ++ [t.tree .comment])
      refine ⟨t.tree .comment :: cs, by rw [hout]; simp, ?_⟩
      intro c hc
      rcases List.mem_cons.mp hc with rfl | hc
      · rfl
      · exact hcs c hc
    · split
      · exact ih out
      · exact ⟨[], (List.append_nil out).symm, by intro c hc; cases hc⟩

/-- A token that is taken comes after the comments before it. -/
theorem takeToken_out {t : Terminal} {s s' : State} (h : takeToken t s = some s') :
    ∃ cs x, s'.out = s.out ++ cs ++ [x] ∧ (∀ c ∈ cs, c.kind = .comment) ∧ x.kind = t.kind := by
  obtain ⟨cs, hout, hcs⟩ := skipBlanks_out s.out s.rest
  unfold takeToken at h
  dsimp only at h
  split at h
  · cases h
  · next tok rest _ =>
    obtain ⟨k, hk, rfl⟩ := Option.map_eq_some_iff.mp h
    exact ⟨cs, tok.tree k, by rw [hout], hcs, (Terminal.accept?_cases hk).1⟩

/-- A line end that is taken comes after the comments before it. -/
theorem takeNewline_out {s s' : State} (h : takeNewline s = some s') :
    ∃ cs x, s'.out = s.out ++ cs ++ [x] ∧ (∀ c ∈ cs, c.kind = .comment) ∧ x.kind = .newline := by
  obtain ⟨cs, hout, hcs⟩ := skipComments_out s.out s.rest
  unfold takeNewline at h
  dsimp only at h
  split at h
  · cases h
  · next tok rest _ =>
    split at h
    · cases h
      exact ⟨cs, tok.tree .newline, by rw [hout], hcs, rfl⟩
    · cases h

/-- What one step keeps, repeating it keeps. -/
theorem iterate_keeps {P : State → Prop} {step : State → Option State}
    (hstep : ∀ s s', P s → step s = some s' → P s') (fuel : Nat) {s : State} (hs : P s) :
    P (iterate step fuel s) := by
  induction fuel generalizing s with
  | zero => exact hs
  | succ fuel ih =>
    rw [iterate]
    split
    · exact hs
    · next s' h =>
      split
      · exact ih (hstep s s' hs h)
      · exact hs

/-! ## What a rule adds -/

/-- A node that is built is of the kind asked for, and comments come before it. -/
theorem mem_build {k : Kind} {ts : List Tree} {t : Tree} (h : t ∈ build k ts) :
    t.kind = .comment ∨ t.kind = k := by
  unfold build at h
  dsimp only at h
  have hbefore : ∀ t ∈ ts.takeWhile (·.kind = .comment), t.kind = .comment := by
    intro t ht
    simpa using List.mem_takeWhile_imp ht
  split at h
  · rcases List.mem_append.mp h with h | h
    · exact .inl (hbefore t h)
    · rw [List.mem_singleton.mp h]
      exact .inr rfl
  · exact .inl (hbefore t h)

/-- Giving a part to nodes does not change their kinds. -/
theorem mem_mark {r : Role} {ts : List Tree} {t : Tree} (h : t ∈ mark r ts) :
    ∃ u ∈ ts, t.kind = u.kind := by
  obtain ⟨u, hu, rfl⟩ := List.mem_map.mp h
  refine ⟨u, hu, ?_⟩
  split <;> rfl

section Calls

variable {spec : ν → Kind → Prop} {call : ν → List Token → Option State}

/-- What a rule adds is of the kinds it yields. -/
theorem run_yields (hcall : ∀ n ts s, call n ts = some s → ∀ t ∈ s.out, isFree t ∨ spec n t.kind)
    {K : Kind → Prop} {a : Rule ν} (ha : a.Yields spec K) {s s' : State}
    (hs : ∀ t ∈ s.out, isFree t ∨ K t.kind) (h : run call a s = some s') :
    ∀ t ∈ s'.out, isFree t ∨ K t.kind := by
  have hnil : ∀ ts : List Token, ∀ t ∈ (State.mk [] ts).out, isFree t ∨ K t.kind := by
    intro ts t ht
    cases ht
  have happend : ∀ {xs ys : List Tree}, (∀ t ∈ xs, isFree t ∨ K t.kind) →
      (∀ t ∈ ys, isFree t ∨ K t.kind) → ∀ t ∈ xs ++ ys, isFree t ∨ K t.kind := by
    intro xs ys hxs hys t ht
    rcases List.mem_append.mp ht with ht | ht
    · exact hxs t ht
    · exact hys t ht
  have hbuild : ∀ {k : Kind} (ts : List Tree), K k → ∀ t ∈ build k ts, isFree t ∨ K t.kind := by
    intro k ts hk t ht
    rcases mem_build ht with htk | htk
    · exact .inl (.inl htk)
    · exact .inr (htk ▸ hk)
  -- a rule is run on what was added before it, so the induction carries all nodes along
  induction a generalizing s s' with
  | done => cases h; exact hs
  | token t =>
    obtain ⟨cs, x, hout, hcs, hx⟩ := takeToken_out h
    rw [hout]
    refine happend (happend hs fun c hc => .inl (.inl (hcs c hc))) fun t ht => ?_
    rw [List.mem_singleton.mp ht, hx]
    exact .inr ha
  | newline =>
    obtain ⟨cs, x, hout, hcs, hx⟩ := takeNewline_out h
    rw [hout]
    refine happend (happend hs fun c hc => .inl (.inl (hcs c hc))) fun t ht => ?_
    rw [List.mem_singleton.mp ht]
    exact .inl (.inr hx)
  | sameLine =>
    simp only [run, Option.ite_none_right_eq_some, Option.some.injEq] at h
    exact h.2 ▸ hs
  | absent a _ =>
    simp only [run, Option.ite_none_left_eq_some, Option.some.injEq] at h
    exact h.2 ▸ hs
  | seq a b iha ihb =>
    obtain ⟨m, hm, hb⟩ := Option.bind_eq_some_iff.mp h
    exact ihb ha.2 (iha ha.1 hs hm) hb
  | alt a b iha ihb =>
    simp only [run] at h
    split at h
    · next m hm => cases h; exact iha ha.1 hs hm
    · exact ihb ha.2 hs h
  | many a iha =>
    cases h
    exact iterate_keeps (P := fun s => ∀ t ∈ s.out, isFree t ∨ K t.kind)
      (fun _ _ hm hstep => iha ha hm hstep) _ hs
  | call n =>
    obtain ⟨m, hm, rfl⟩ := Option.map_eq_some_iff.mp h
    refine happend hs fun t ht => ?_
    rcases hcall n _ m hm t ht with hfree | hspec
    · exact .inl hfree
    · exact .inr (ha _ hspec)
  | group a iha =>
    obtain ⟨m, hm, rfl⟩ := Option.map_eq_some_iff.mp h
    exact happend hs (iha ha (hnil s.rest) hm)
  | node k a _ =>
    obtain ⟨m, hm, rfl⟩ := Option.map_eq_some_iff.mp h
    exact happend hs (hbuild m.out ha)
  | wrap k r a _ =>
    obtain ⟨m, hm, rfl⟩ := Option.map_eq_some_iff.mp h
    exact hbuild _ ha
  | role r a iha =>
    obtain ⟨m, hm, rfl⟩ := Option.map_eq_some_iff.mp h
    refine happend hs fun t ht => ?_
    obtain ⟨u, hu, hk⟩ := mem_mark ht
    have := iha ha (hnil s.rest) hm u hu
    rw [isFree, hk]
    exact this

/-- A rule that appends leaves what is there in front. -/
theorem run_appends {a : Rule ν} (ha : a.Appends) {s s' : State} (h : run call a s = some s') :
    s.out <+: s'.out := by
  induction a generalizing s s' with
  | done => cases h; exact List.prefix_rfl
  | token t =>
    obtain ⟨cs, x, hout, _⟩ := takeToken_out h
    exact ⟨cs ++ [x], by rw [hout, List.append_assoc]⟩
  | newline =>
    obtain ⟨cs, x, hout, _⟩ := takeNewline_out h
    exact ⟨cs ++ [x], by rw [hout, List.append_assoc]⟩
  | sameLine =>
    simp only [run, Option.ite_none_right_eq_some, Option.some.injEq] at h
    exact h.2 ▸ List.prefix_rfl
  | absent a _ =>
    simp only [run, Option.ite_none_left_eq_some, Option.some.injEq] at h
    exact h.2 ▸ List.prefix_rfl
  | seq a b iha ihb =>
    obtain ⟨m, hm, hb⟩ := Option.bind_eq_some_iff.mp h
    exact (iha ha.1 hm).trans (ihb ha.2 hb)
  | alt a b iha ihb =>
    simp only [run] at h
    split at h
    · next m hm => cases h; exact iha ha.1 hm
    · exact ihb ha.2 h
  | many a iha =>
    cases h
    exact iterate_keeps (P := fun m => s.out <+: m.out)
      (fun _ _ hm hstep => hm.trans (iha ha hstep)) _ List.prefix_rfl
  | wrap k r a _ => exact ha.elim
  | call n | group a _ | node k a _ | role r a _ =>
    obtain ⟨m, hm, rfl⟩ := Option.map_eq_some_iff.mp h
    exact List.prefix_append _ _

/-- A rule that is silent leaves the nodes as they are. -/
theorem run_silent {a : Rule ν} (ha : a.Silent) {s s' : State} (h : run call a s = some s') :
    s' = s := by
  cases a with
  | done => cases h; rfl
  | sameLine =>
    simp only [run, Option.ite_none_right_eq_some, Option.some.injEq] at h
    exact h.2.symm
  | _ => exact ha.elim

/-- What a rule that opens with a sign adds. -/
theorem run_opens {g : Sign} {a : Rule ν} (ha : a.Opens g) {s s' : State}
    (h : run call a s = some s') :
    ∃ cs x rest, s'.out = s.out ++ (cs ++ x :: rest) ∧ (∀ c ∈ cs, c.kind = .comment) ∧
      x.kind = .sign g := by
  induction a generalizing s s' with
  | token t =>
    obtain ⟨cs, x, hout, hcs, hx⟩ := takeToken_out h
    rw [Opens] at ha
    subst ha
    exact ⟨cs, x, [], by rw [hout, List.append_assoc], hcs, hx⟩
  | seq a b iha ihb =>
    obtain ⟨m, hm, hb⟩ := Option.bind_eq_some_iff.mp h
    rcases ha with ⟨hsilent, hopens⟩ | ⟨hopens, happends⟩
    · obtain rfl := run_silent hsilent hm
      exact ihb hopens hb
    · obtain ⟨cs, x, rest, hout, hcs, hx⟩ := iha hopens hm
      obtain ⟨more, hmore⟩ := run_appends happends hb
      refine ⟨cs, x, rest ++ more, ?_, hcs, hx⟩
      rw [← hmore, hout]
      simp only [List.append_assoc, List.cons_append]
  | _ => exact ha.elim

/-- What a rule that closes with a sign adds. -/
theorem run_closes {g : Sign} {a : Rule ν} (ha : a.Closes g) {s s' : State}
    (h : run call a s = some s') : ∃ front y, s'.out = front ++ [y] ∧ y.kind = .sign g := by
  induction a generalizing s s' with
  | token t =>
    obtain ⟨cs, x, hout, _, hx⟩ := takeToken_out h
    rw [Closes] at ha
    subst ha
    exact ⟨s.out ++ cs, x, hout, hx⟩
  | seq a b _ ihb =>
    obtain ⟨m, _, hb⟩ := Option.bind_eq_some_iff.mp h
    exact ihb ha hb
  | _ => exact ha.elim

/-- What a rule that adds a list of parameters leaves among its nodes. -/
theorem run_lists
    (hcall : ∀ n ts s, IsList spec n → call n ts = some s → ∃ t ∈ s.out, ¬ isFree t)
    {a : Rule ν} (ha : a.Lists spec) {s s' : State} (h : run call a s = some s') :
    ∃ t ∈ s'.out, ¬ isFree t ∧ t.role = some .parameters := by
  induction a generalizing s s' with
  | seq a b iha ihb =>
    obtain ⟨m, hm, hb⟩ := Option.bind_eq_some_iff.mp h
    rcases ha with ⟨hlists, happends⟩ | hlists
    · obtain ⟨t, ht, hrole⟩ := iha hlists hm
      exact ⟨t, (run_appends happends hb).subset ht, hrole⟩
    · exact ihb hlists hb
  | role r a _ =>
    cases a with
    | call n =>
      obtain ⟨rfl, hn⟩ := ha
      obtain ⟨m, hm, rfl⟩ := Option.map_eq_some_iff.mp h
      obtain ⟨m', hm', rfl⟩ := Option.map_eq_some_iff.mp hm
      obtain ⟨t, ht, hfree⟩ := hcall n s.rest m' hn hm'
      have hmark : { t with role := some .parameters } ∈ mark .parameters m'.out :=
        List.mem_map.mpr ⟨t, ht, if_neg hfree⟩
      exact ⟨_, List.mem_append_right _ hmark, hfree, rfl⟩
    | _ => exact ha.elim
  | _ => exact ha.elim

/-- What is neither a comment nor hidden becomes a child of the node that is built of it. -/
theorem mem_own {ts : List Tree} {t : Tree} (ht : t ∈ ts) (hfree : ¬ isFree t) :
    t ∈ (ts.dropWhile (·.kind = .comment)).filter (·.kind ≠ .newline) := by
  rw [← List.takeWhile_append_dropWhile (p := fun t : Tree => decide (t.kind = .comment)) (l := ts)]
    at ht
  have hcomment : t ∉ ts.takeWhile (·.kind = .comment) := by
    intro hmem
    exact hfree (.inl (by simpa using List.mem_takeWhile_imp hmem))
  have hown := (List.mem_append.mp ht).resolve_left hcomment
  exact List.mem_filter.mpr ⟨hown, decide_eq_true fun hk => hfree (.inr hk)⟩

/-- A node is built wherever there is something to build it of. -/
theorem exists_mem_build (k : Kind) {ts : List Tree} {x : Tree} (hx : x ∈ ts)
    (hfree : ¬ isFree x) : ∃ t ∈ build k ts, t.kind = k := by
  have hown : ts.dropWhile (·.kind = .comment) ≠ [] :=
    List.ne_nil_of_mem (List.mem_filter.mp (mem_own hx hfree)).1
  unfold build
  dsimp only
  rw [List.head?_eq_some_head hown, List.getLast?_eq_some_getLast hown]
  exact ⟨_, List.mem_append_right _ List.mem_cons_self, rfl⟩

end Calls

/-! ## Nodes over the text -/

/-- A token that a sound terminal accepts becomes a node that lies over the text. -/
theorem tree_laid {src : Bytes} {t : Terminal} {tok : Token} {k : Kind} (ht : t.Sound)
    (htok : tok.Laid src) (h : t.accept? tok.lexeme = some k) : Tree.Laid src (tok.tree k) := by
  refine .node _ htok.stop_le htok.row (.inr htok.bytes) ?_ htok.inner
  obtain ⟨rfl, hcases⟩ := Terminal.accept?_cases h
  rcases hcases with ⟨s, rfl, hl⟩ | ⟨k', rfl⟩ | ⟨hplain, hsign⟩
  · refine ⟨?_, ?_, ?_, ?_, ?_, ?_⟩
    · intro s' b hs hb
      simp only [Token.tree, Terminal.kind, Kind.sign.injEq] at hs
      exact htok.sign s b hl (hs ▸ hb)
    · intro _
      exact htok.plain (by intro k hk; rw [hl] at hk; cases hk)
    · rintro (hk | hk) <;> cases hk
    · rintro (hk | hk) <;> cases hk
    · intro hk
      cases hk
    · intro r hr
      cases hr
  · -- a literal is neither a sign nor a node in brackets
    obtain ⟨hk, hfield⟩ := ht
    simp only [Kind.isPlain, ne_eq, Bool.and_eq_true, decide_eq_true_eq] at hk
    refine ⟨?_, ?_, ?_, ?_, ?_, ?_⟩
    · intro s b hs
      simp only [Token.tree, Terminal.kind] at hs
      rw [hs] at hk
      simp [Kind.isNamed] at hk
    · rintro (hitem | hk')
      · simp only [Tree.isItem, Token.tree, Terminal.kind, ne_eq] at hitem
        simp [hk] at hitem
      · exact absurd hk' hfield
    · rintro (hk' | hk') <;> simp_all [Token.tree, Terminal.kind]
    · rintro (hk' | hk') <;> simp_all [Token.tree, Terminal.kind]
    · intro hdecl
      rcases Kind.isFuncDecl_iff.mp hdecl with hk' | hk' <;> simp_all [Token.tree, Terminal.kind]
    · intro r hr
      cases hr
  · -- a word: nothing is inside it
    have hk : t.kind.isPlain = true := by
      cases t with
      | sign s => exact absurd rfl (hsign s)
      | name k => exact ht
      | word w k => exact ht
      | literal k => exact ht.1
    simp only [Kind.isPlain, ne_eq, Bool.and_eq_true, decide_eq_true_eq] at hk
    refine ⟨?_, fun _ => htok.plain hplain, ?_, ?_, ?_, ?_⟩
    · intro s b hs
      simp only [Token.tree] at hs
      rw [hs] at hk
      simp [Kind.isNamed] at hk
    · rintro (hk' | hk') <;> simp_all [Token.tree]
    · rintro (hk' | hk') <;> simp_all [Token.tree]
    · intro hdecl
      rcases Kind.isFuncDecl_iff.mp hdecl with hk' | hk' <;> simp_all [Token.tree]
    · intro r hr
      cases hr

/-- A comment or a line end becomes a node that lies over the text. -/
theorem free_laid {src : Bytes} {tok : Token} {k : Kind} (htok : tok.Laid src)
    (hk : k = .comment ∨ k = .newline) (hl : ∀ k, tok.lexeme ≠ .literal k) :
    Tree.Laid src (tok.tree k) := by
  refine .node _ htok.stop_le htok.row (.inr htok.bytes) ?_ htok.inner
  refine ⟨?_, fun _ => htok.plain hl, ?_, ?_, ?_, ?_⟩
  · intro s b hs
    rcases hk with rfl | rfl <;> cases hs
  · rintro (hk' | hk') <;> rcases hk with rfl | rfl <;> cases hk'
  · rintro (hk' | hk') <;> rcases hk with rfl | rfl <;> cases hk'
  · intro hdecl
    rcases hk with rfl | rfl <;> cases hdecl
  · intro r hr
    cases hr

/-- Giving a part to nodes that can play it keeps them over the text. -/
theorem mark_laid {src : Bytes} {r : Role} {ts : List Tree} (h : ∀ t ∈ ts, Tree.Laid src t)
    (hr : ∀ t ∈ ts, isFree t ∨ r.admits t.kind = true) : ∀ t ∈ mark r ts, Tree.Laid src t := by
  intro t ht
  obtain ⟨u, hu, rfl⟩ := List.mem_map.mp ht
  have hlaid := h u hu
  split
  · exact hlaid
  · next hfree =>
    have hadmits : r.admits u.kind = true := (hr u hu).resolve_left hfree
    obtain ⟨hsign, hleaf, hbraces, hparens, hparams, _⟩ := hlaid.shaped
    refine .node _ hlaid.stop_le hlaid.row hlaid.bytes
      ⟨hsign, hleaf, hbraces, hparens, hparams, ?_⟩ fun c hc => hlaid.of_mem_children hc
    intro p hp
    cases hp
    exact hadmits

/-- Giving a part to nodes does not move them. -/
theorem mark_row {r : Role} {ts : List Tree} {lo hi : Nat} (h : Row lo ts hi) :
    Row lo (mark r ts) hi := by
  induction ts generalizing lo with
  | nil => exact h
  | cons t ts ih =>
    obtain ⟨hlo, hspan, hrest⟩ := h
    change Row lo ((if t.kind = .comment ∨ t.kind = .newline then t else { t with role := some r })
      :: mark r ts) hi
    split
    · exact ⟨hlo, hspan, ih hrest⟩
    · exact ⟨hlo, hspan, ih hrest⟩

/-- A node over a row of nodes that lie over the text does so too, if it has its shape. -/
theorem build_laid {src : Bytes} {k : Kind} {ts : List Tree} {lo hi : Nat} (hrow : Row lo ts hi)
    (hlaid : ∀ t ∈ ts, Tree.Laid src t)
    (hshape : ∀ a b, (ts.dropWhile (·.kind = .comment)).head? = some a →
      (ts.dropWhile (·.kind = .comment)).getLast? = some b →
      Tree.Shaped ⟨k, none, a.start, b.stop, [],
        (ts.dropWhile (·.kind = .comment)).filter (·.kind ≠ .newline)⟩) :
    Row lo (build k ts) hi ∧ ∀ t ∈ build k ts, Tree.Laid src t := by
  have hsplit : ts.takeWhile (·.kind = .comment) ++ ts.dropWhile (·.kind = .comment) = ts :=
    List.takeWhile_append_dropWhile
  rw [← hsplit] at hrow hlaid
  -- comments in front stay outside, so the node starts with the first tree after them
  obtain ⟨mid, hbefore, hown⟩ := hrow.of_append
  have hbeforeLaid : ∀ t ∈ ts.takeWhile (·.kind = .comment), Tree.Laid src t :=
    fun t ht => hlaid t (List.mem_append_left _ ht)
  unfold build
  dsimp only
  split
  · next a b ha hb =>
    obtain ⟨rest, hcons⟩ : ∃ rest, ts.dropWhile (·.kind = .comment) = a :: rest := by
      cases hd : ts.dropWhile (·.kind = .comment) with
      | nil => rw [hd] at ha; cases ha
      | cons x rest => rw [hd] at ha; cases ha; exact ⟨rest, rfl⟩
    have hfit : Row a.start (ts.dropWhile (·.kind = .comment)) b.stop := by
      have := hown.getLast hb
      rw [hcons] at this ⊢
      exact this.head
    have hbmem : b ∈ ts.dropWhile (·.kind = .comment) := List.mem_of_getLast? hb
    have hstart : mid ≤ a.start := by
      rw [hcons] at hown
      exact hown.1
    have hstop := (hown.bounds_of_mem hbmem).2.2
    refine ⟨hbefore.append ⟨hstart, hfit.le, hstop⟩, ?_⟩
    intro t ht
    rcases List.mem_append.mp ht with ht | ht
    · exact hbeforeLaid t ht
    · rw [List.mem_singleton.mp ht]
      have hb' := hlaid b (List.mem_append_right _ hbmem)
      refine .node _ hb'.stop_le (hfit.sublist List.filter_sublist) (.inl rfl)
        (hshape a b ha hb) ?_
      intro c hc
      exact hlaid c (List.mem_append_right _ (List.mem_filter.mp hc).1)
  · refine ⟨hbefore.mono le_rfl hown.le, hbeforeLaid⟩

/-! ## Nodes in brackets -/

/-- What a rule in brackets adds is in brackets, once the comments before it and the line ends
are taken off. -/
theorem bracketed_of_run {call : ν → List Token → Option State} {opening closing : Sign}
    (hne : opening ≠ closing) {r : Rule ν} (hopens : r.Opens opening) (hcloses : r.Closes closing)
    {ts : List Token} {m : State} (h : run call r ⟨[], ts⟩ = some m) {k : Kind} {a b : Tree}
    (ha : (m.out.dropWhile (·.kind = .comment)).head? = some a)
    (hb : (m.out.dropWhile (·.kind = .comment)).getLast? = some b) :
    Tree.Bracketed opening closing ⟨k, none, a.start, b.stop, [],
      (m.out.dropWhile (·.kind = .comment)).filter (·.kind ≠ .newline)⟩ := by
  obtain ⟨cs, x, rest, hout, hcs, hx⟩ := run_opens hopens h
  obtain ⟨front, y, hlast, hy⟩ := run_closes hcloses h
  rw [List.nil_append] at hout
  have hown : m.out.dropWhile (·.kind = .comment) = x :: rest := by
    rw [hout, List.dropWhile_append_of_pos (by simpa using hcs),
      List.dropWhile_cons_of_neg (by simp [hx])]
  have hyLast : (x :: rest).getLast? = some y := by
    have hends : m.out.getLast? = some y := by rw [hlast, List.getLast?_concat]
    rw [hout, List.getLast?_append_of_ne_nil _ (List.cons_ne_nil x rest)] at hends
    exact hends
  rw [hown] at ha hb ⊢
  rw [hyLast] at hb
  obtain rfl : x = a := Option.some.inj ha
  obtain rfl : y = b := Option.some.inj hb
  -- the two signs differ, so the closing one is among the rest
  obtain ⟨mid, rfl⟩ : ∃ mid, rest = mid ++ [y] := by
    cases rest with
    | nil =>
      obtain rfl : x = y := Option.some.inj hyLast
      rw [hx] at hy
      exact absurd (Kind.sign.inj hy) hne
    | cons z zs =>
      rw [List.getLast?_cons_cons] at hyLast
      exact List.getLast?_eq_some_iff.mp hyLast
  refine ⟨x, mid.filter (·.kind ≠ .newline), y, ?_, hx, hy, rfl, rfl⟩
  simp [List.filter_append, hx, hy]

/-- A node that is built of what fills its kind has its shape. -/
theorem shaped_of_fills {spec : ν → Kind → Prop} {call : ν → List Token → Option State}
    (hcall : ∀ n ts s, IsList spec n → call n ts = some s → ∃ t ∈ s.out, ¬ isFree t)
    {k : Kind} {r : Rule ν} (hr : r.Fills spec k) {ts : List Token} {m : State}
    (h : run call r ⟨[], ts⟩ = some m) {a b : Tree}
    (ha : (m.out.dropWhile (·.kind = .comment)).head? = some a)
    (hb : (m.out.dropWhile (·.kind = .comment)).getLast? = some b) :
    Tree.Shaped ⟨k, none, a.start, b.stop, [],
      (m.out.dropWhile (·.kind = .comment)).filter (·.kind ≠ .newline)⟩ := by
  obtain ⟨hitem, hfield, hbraces, hparens, hlists⟩ := hr
  refine ⟨?_, ?_, ?_, ?_, ?_, ?_⟩
  · intro s b hs
    change k = .sign s at hs
    rw [hs] at hitem
    cases hitem
  · rintro (hleaf | hk)
    · exact absurd hitem (by simpa [Tree.isItem] using hleaf)
    · exact absurd hk hfield
  · intro hk
    exact bracketed_of_run (by decide) (hbraces hk).1 (hbraces hk).2 h ha hb
  · intro hk
    exact bracketed_of_run (by decide) (hparens hk).1 (hparens hk).2 h ha hb
  · intro hk
    obtain ⟨t, ht, hfree, hrole⟩ := run_lists hcall (hlists hk) h
    exact ⟨t, mem_own ht hfree, hrole⟩
  · intro p hp
    cases hp

/-- A node of a plain kind has its shape, whatever it is built of. -/
theorem shaped_of_isPlain {k : Kind} (hk : k.isPlain = true) (hfield : k ≠ .fieldIdentifier)
    (start stop : Nat) (children : List Tree) :
    Tree.Shaped ⟨k, none, start, stop, [], children⟩ := by
  simp only [Kind.isPlain, ne_eq, Bool.and_eq_true, decide_eq_true_eq] at hk
  refine ⟨?_, ?_, ?_, ?_, ?_, ?_⟩
  · intro s b hs
    change k = .sign s at hs
    rw [hs] at hk
    simp [Kind.isNamed] at hk
  · rintro (hleaf | hk')
    · simp only [Tree.isItem] at hleaf
      simp [hk] at hleaf
    · exact absurd hk' hfield
  · rintro (hk' | hk') <;> simp_all
  · rintro (hk' | hk') <;> simp_all
  · intro hdecl
    rcases Kind.isFuncDecl_iff.mp hdecl with hk' | hk' <;> simp_all
  · intro p hp
    cases hp

/-! ## Good states -/

/-- The nodes built so far stand in a row from `lo` on and lie over the text, and the tokens left
come after them. -/
def State.Good (src : Bytes) (lo : Nat) (s : State) : Prop :=
  ∃ mid, Row lo s.out mid ∧ (∀ t ∈ s.out, Tree.Laid src t) ∧ Stream src mid s.rest

namespace State.Good

variable {src : Bytes} {lo : Nat}

/-- Nothing is built yet. -/
theorem start {ts : List Token} (h : Stream src lo ts) : Good src lo ⟨[], ts⟩ :=
  ⟨lo, le_rfl, (by intro t ht; cases ht), h⟩

/-- The tokens left come after some offset, and what is built from there on may be appended. -/
theorem extend {s : State} (h : Good src lo s) :
    ∃ mid, Stream src mid s.rest ∧ ∀ {out : List Tree} {rest : List Token},
      Good src mid ⟨out, rest⟩ → Good src lo ⟨s.out ++ out, rest⟩ := by
  obtain ⟨mid, hrow, hlaid, hrest⟩ := h
  refine ⟨mid, hrest, ?_⟩
  rintro out rest ⟨hi, hrow', hlaid', hrest'⟩
  refine ⟨hi, hrow.append hrow', ?_, hrest'⟩
  intro t ht
  rcases List.mem_append.mp ht with ht | ht
  · exact hlaid t ht
  · exact hlaid' t ht

/-- The next token may be taken as a node that lies over the text. -/
theorem push {out : List Tree} {tok : Token} {ts : List Token} (h : Good src lo ⟨out, tok :: ts⟩)
    {k : Kind} (hk : tok.Laid src → Tree.Laid src (tok.tree k)) :
    Good src lo ⟨out ++ [tok.tree k], ts⟩ := by
  obtain ⟨mid, hrest, happend⟩ := h.extend
  obtain ⟨hlo, htok, hts⟩ := hrest
  refine happend ⟨tok.stop, ⟨hlo, htok.start_lt.le, le_rfl⟩, ?_, hts⟩
  intro t ht
  rw [List.mem_singleton.mp ht]
  exact hk htok

/-- The next token may be left out. -/
theorem drop {out : List Tree} {tok : Token} {ts : List Token}
    (h : Good src lo ⟨out, tok :: ts⟩) : Good src lo ⟨out, ts⟩ := by
  obtain ⟨mid, hrow, hlaid, hlo, htok, hts⟩ := h
  exact ⟨mid, hrow, hlaid, hts.mono (hlo.trans htok.start_lt.le)⟩

theorem skipComments {out : List Tree} {ts : List Token} (h : Good src lo ⟨out, ts⟩) :
    Good src lo (skipComments out ts) := by
  induction ts generalizing out with
  | nil => exact h
  | cons tok ts ih =>
    rw [Rule.skipComments]
    split
    · next hcomment =>
      exact ih (h.push fun htok => free_laid htok (.inl rfl) (by simp [hcomment]))
    · exact h

theorem skipBlanks {out : List Tree} {ts : List Token} (h : Good src lo ⟨out, ts⟩) :
    Good src lo (skipBlanks out ts) := by
  induction ts generalizing out with
  | nil => exact h
  | cons tok ts ih =>
    rw [Rule.skipBlanks]
    split
    · next hcomment =>
      exact ih (h.push fun htok => free_laid htok (.inl rfl) (by simp [hcomment]))
    · split
      · exact ih h.drop
      · exact h

theorem takeToken {t : Terminal} (ht : t.Sound) {s s' : State} (hs : Good src lo s)
    (h : takeToken t s = some s') : Good src lo s' := by
  have hgood : Good src lo (Rule.skipBlanks s.out s.rest) := hs.skipBlanks
  unfold Rule.takeToken at h
  dsimp only at h
  split at h
  · cases h
  · next tok rest hrest =>
    obtain ⟨k, hk, rfl⟩ := Option.map_eq_some_iff.mp h
    generalize Rule.skipBlanks s.out s.rest = m at hgood hrest
    obtain ⟨out, ts⟩ := m
    cases hrest
    exact hgood.push fun htok => tree_laid ht htok hk

theorem takeNewline {s s' : State} (hs : Good src lo s) (h : takeNewline s = some s') :
    Good src lo s' := by
  have hgood : Good src lo (Rule.skipComments s.out s.rest) := hs.skipComments
  unfold Rule.takeNewline at h
  dsimp only at h
  split at h
  · cases h
  · next tok rest hrest =>
    generalize Rule.skipComments s.out s.rest = m at hgood hrest h
    obtain ⟨out, ts⟩ := m
    cases hrest
    split at h
    · next hnewline =>
      cases h
      exact hgood.push fun htok => free_laid htok (.inr rfl) (by simp [hnewline])
    · cases h

end State.Good

/-! ## Running rules -/

/-- Running a sound rule keeps a state good, if running a nonterminal from any tokens on gives a
good state. -/
theorem run_good {src : Bytes} {spec : ν → Kind → Prop} {call : ν → List Token → Option State}
    (hyields : ∀ n ts s, call n ts = some s → ∀ t ∈ s.out, isFree t ∨ spec n t.kind)
    (hlists : ∀ n ts s, IsList spec n → call n ts = some s → ∃ t ∈ s.out, ¬ isFree t)
    (hgood : ∀ n lo ts s, Stream src lo ts → call n ts = some s → s.Good src lo)
    {a : Rule ν} (ha : a.Sound spec) {lo : Nat} {s s' : State} (hs : s.Good src lo)
    (h : run call a s = some s') : s'.Good src lo := by
  induction a generalizing s s' lo with
  | done => cases h; exact hs
  | token t => exact hs.takeToken ha h
  | newline => exact hs.takeNewline h
  | sameLine =>
    simp only [run, Option.ite_none_right_eq_some, Option.some.injEq] at h
    exact h.2 ▸ hs
  | absent a _ =>
    simp only [run, Option.ite_none_left_eq_some, Option.some.injEq] at h
    exact h.2 ▸ hs
  | seq a b iha ihb =>
    obtain ⟨m, hm, hb⟩ := Option.bind_eq_some_iff.mp h
    exact ihb ha.2 (iha ha.1 hs hm) hb
  | alt a b iha ihb =>
    simp only [run] at h
    split at h
    · next m hm => cases h; exact iha ha.1 hs hm
    · exact ihb ha.2 hs h
  | many a iha =>
    cases h
    exact iterate_keeps (fun _ _ hm hstep => iha ha hm hstep) _ hs
  | call n =>
    obtain ⟨m, hm, rfl⟩ := Option.map_eq_some_iff.mp h
    obtain ⟨mid, hrest, happend⟩ := hs.extend
    exact happend (hgood n mid s.rest m hrest hm)
  | group a iha =>
    obtain ⟨m, hm, rfl⟩ := Option.map_eq_some_iff.mp h
    obtain ⟨mid, hrest, happend⟩ := hs.extend
    exact happend (iha ha (.start hrest) hm)
  | node k a iha =>
    obtain ⟨m, hm, rfl⟩ := Option.map_eq_some_iff.mp h
    obtain ⟨mid, hrest, happend⟩ := hs.extend
    obtain ⟨hi, hrow, hlaid, hleft⟩ := iha ha.1 (.start hrest) hm
    obtain ⟨hrow', hlaid'⟩ := build_laid hrow hlaid
      fun _ _ hhead hlast => shaped_of_fills hlists ha.2 hm hhead hlast
    exact happend ⟨hi, hrow', hlaid', hleft⟩
  | wrap k r a iha =>
    -- what was built before becomes part of the new node, which spans both
    obtain ⟨m, hm, rfl⟩ := Option.map_eq_some_iff.mp h
    obtain ⟨ha, ⟨hplain, hfield⟩, hr⟩ := ha
    obtain ⟨mid, hrow, hlaid, hrest⟩ := hs
    obtain ⟨hi, hrow', hlaid', hleft⟩ := iha ha (.start hrest) hm
    have hwrap : ∀ front, Row lo front mid → (∀ t ∈ front, Tree.Laid src t) →
        State.Good src lo ⟨build k (front ++ m.out), m.rest⟩ := by
      intro front hfront hfrontLaid
      obtain ⟨hrow'', hlaid''⟩ := build_laid (hfront.append hrow')
        (fun t ht => (List.mem_append.mp ht).elim (hfrontLaid t) (hlaid' t))
        fun _ _ _ _ => shaped_of_isPlain hplain hfield _ _ _
      exact ⟨hi, hrow'', hlaid'', hleft⟩
    cases r with
    | none => exact hwrap _ hrow hlaid
    | some r => exact hwrap _ (mark_row hrow) (mark_laid hlaid fun t _ => .inr (hr r rfl t.kind))
  | role r a iha =>
    obtain ⟨m, hm, rfl⟩ := Option.map_eq_some_iff.mp h
    obtain ⟨mid, hrest, happend⟩ := hs.extend
    obtain ⟨hi, hrow, hlaid, hleft⟩ := iha ha.1 (.start hrest) hm
    have hkinds := run_yields hyields ha.2 (by intro t ht; cases ht) hm
    exact happend ⟨hi, mark_row hrow, mark_laid hlaid hkinds, hleft⟩

/-- What a nonterminal of a grammar adds is of the kinds it is said to yield. -/
theorem derive_yields {grammar : ν → Rule ν} {spec : ν → Kind → Prop}
    (hyields : ∀ n, (grammar n).Yields spec (spec n)) (fuel : Nat) (n : ν) (ts : List Token)
    (s : State) (h : derive grammar fuel n ts = some s) :
    ∀ t ∈ s.out, isFree t ∨ spec n t.kind := by
  induction fuel generalizing n ts s with
  | zero => cases h
  | succ fuel ih => exact run_yields ih (hyields n) (by intro t ht; cases ht) h

/-- The rule of a nonterminal that stands for lists of parameters builds one. -/
def ListRule (a : Rule ν) : Prop := ∃ b, a = .node .parameterList b ∧ b.Opens .lparen

/-- A nonterminal that stands for lists of parameters adds one. -/
theorem derive_lists {grammar : ν → Rule ν} {spec : ν → Kind → Prop}
    (hlists : ∀ n, IsList spec n → (grammar n).ListRule) (fuel : Nat) (n : ν) (ts : List Token)
    (s : State) (hn : IsList spec n) (h : derive grammar fuel n ts = some s) :
    ∃ t ∈ s.out, ¬ isFree t := by
  cases fuel with
  | zero => cases h
  | succ fuel =>
    obtain ⟨b, hb, hopens⟩ := hlists n hn
    rw [derive, hb] at h
    obtain ⟨m, hm, rfl⟩ := Option.map_eq_some_iff.mp h
    obtain ⟨cs, x, rest, hout, _, hx⟩ := run_opens hopens hm
    have hmem : x ∈ m.out := by
      rw [hout]
      simp
    obtain ⟨t, ht, hk⟩ := exists_mem_build .parameterList hmem (by simp [isFree, hx])
    exact ⟨t, List.mem_append_right _ ht, by simp [isFree, hk]⟩

/-- Running a nonterminal of a grammar of sound rules gives a good state. -/
theorem derive_good {src : Bytes} {grammar : ν → Rule ν} {spec : ν → Kind → Prop}
    (hyields : ∀ n, (grammar n).Yields spec (spec n))
    (hlists : ∀ n, IsList spec n → (grammar n).ListRule) (hsound : ∀ n, (grammar n).Sound spec)
    (fuel : Nat) (n : ν) (lo : Nat) (ts : List Token) (s : State) (hts : Stream src lo ts)
    (h : derive grammar fuel n ts = some s) : s.Good src lo := by
  induction fuel generalizing n lo ts s with
  | zero => cases h
  | succ fuel ih =>
    exact run_good (derive_yields hyields fuel) (derive_lists hlists fuel) ih (hsound n)
      (.start hts) h

end Rule

end CtxThread.Code
