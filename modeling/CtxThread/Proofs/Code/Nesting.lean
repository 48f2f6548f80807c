import CtxThread.Proofs.Code.Parse
import CtxThread.Proofs.Code.Whole

/-!
# What stands in what

Which nodes can be the children of which, and which children a node is sure to have, can be read
off the rules of a grammar: a rule is run on the parts and kinds of nodes instead of the nodes
themselves. A table of what may stand in what that agrees with every rule of the grammar then holds
of every node of a parsed tree.

## Main definitions

- `Mark`: the part and the kind of a node
- `Rule.after`: the marks of the nodes that may be there after a rule has run
- `Rule.nests`: every node that a rule builds has children with the marks a table allows
- `Rule.surely`, `Rule.leaves`: a rule leaves a node with a given mark, or any node, wherever it fits
- `Table`: what may stand in a node, and what has to
- `Tree.Formed`: a node that agrees with a table

## Main statements

- `Rule.run_formed`: rules that agree with a table build nodes that do
- `parse?_formed`: every node of a parsed tree agrees with a table that the grammar agrees with
-/

namespace CtxThread.Code

/-- The part that a node plays and its kind. -/
structure Mark where
  role : Option Role
  kind : Kind
  deriving DecidableEq

/-- The mark of a node that is given the part `r`. -/
def Mark.as (r : Role) (m : Mark) : Mark := ⟨some r, m.kind⟩

/-- The mark of a node. -/
def Tree.mark (t : Tree) : Mark := ⟨t.role, t.kind⟩

/-- The kinds of comments and literals. -/
def Kind.isSolid : Kind → Bool
  | .comment | .intLiteral | .floatLiteral | .imaginaryLiteral | .runeLiteral
  | .interpretedStringLiteral | .rawStringLiteral => true
  | _ => false

/-- The kinds of names and signs. -/
def Kind.isPart : Kind → Bool
  | .identifier | .fieldIdentifier | .typeIdentifier | .packageIdentifier | .blankIdentifier
  | .labelName | .nilValue | .trueValue | .falseValue | .iotaValue => true
  | .sign s => s ≠ .quote && s ≠ .backquote
  | _ => false

/-- The kinds of nodes that are one token. -/
def Kind.isToken (k : Kind) : Bool := k.isSolid || k.isPart

/-- The kinds of nodes that no part is ever given to. -/
def Kind.isFree (k : Kind) : Bool := k = .comment || k = .newline

/-- The kinds of nodes that are neither a token nor a part of one. -/
def Kind.isBuilt (k : Kind) : Bool := !k.isToken && !Token.isInner k

/-- What the kind of a node says about its children. -/
structure Table where
  /-- What may be a child of a node of the kind, comments aside. -/
  admits : Kind → Mark → Bool
  /-- What a node of the kind is sure to have among its children. -/
  requires : Kind → Option (Mark → Bool)

/-- The node agrees with the table. A token is not empty and holds its parts only; a comment or a
literal does not open with a separator, and a name or a sign goes over no line end. -/
structure Tree.Formed (table : Table) (t : Tree) : Prop where
  token : t.kind.isToken = true →
    t.start < t.stop ∧ ∀ c ∈ t.children, c.children = [] ∧ Token.isInner c.kind = true
  solid : t.kind.isSolid = true → Bytes.OpensSolid t.bytes
  line : t.kind.isPart = true → t.bytes ≠ [] ∧ Bytes.lineFeed ∉ t.bytes
  inner : Token.isInner t.kind = true → t.children = []
  admits : t.kind.isBuilt = true →
    ∀ c ∈ t.children, c.kind = .comment ∨ table.admits t.kind c.mark = true
  requires : t.kind.isBuilt = true →
    ∀ p, table.requires t.kind = some p → ∃ c ∈ t.children, p c.mark = true

theorem Kind.isToken_of_isSolid {k : Kind} (h : k.isSolid = true) : k.isToken = true := by
  rw [isToken, h, Bool.true_or]

theorem Kind.isPart_of_isSolid {k : Kind} (h : k.isSolid = true) : k.isPart = false := by
  cases k with
  | sign s => cases h
  | _ => first | rfl | cases h

theorem Kind.isToken_of_isPart {k : Kind} (h : k.isPart = true) : k.isToken = true := by
  rw [isToken, h, Bool.or_true]

theorem Kind.isToken_of_isInner {k : Kind} (h : Token.isInner k = true) : k.isToken = false := by
  simp only [Token.isInner, Bool.or_eq_true, decide_eq_true_eq] at h
  rcases h with (((rfl | rfl) | rfl) | rfl) | rfl <;> rfl

namespace Tree

variable {table : Table} {t : Tree}

theorem formed_of_isToken (hk : t.kind.isToken = true) (hspan : t.start < t.stop)
    (hleaf : ∀ c ∈ t.children, c.children = [] ∧ Token.isInner c.kind = true)
    (hsolid : t.kind.isSolid = true → Bytes.OpensSolid t.bytes)
    (hline : t.kind.isPart = true → t.bytes ≠ [] ∧ Bytes.lineFeed ∉ t.bytes) :
    t.Formed table where
  token _ := ⟨hspan, hleaf⟩
  solid := hsolid
  line := hline
  inner hinner := by rw [Kind.isToken_of_isInner hinner] at hk; cases hk
  admits hbuilt := by simp [Kind.isBuilt, hk] at hbuilt
  requires hbuilt := by simp [Kind.isBuilt, hk] at hbuilt

theorem formed_of_isInner (hk : Token.isInner t.kind = true) (hleaf : t.children = []) :
    t.Formed table where
  token htoken := by rw [Kind.isToken_of_isInner hk] at htoken; cases htoken
  solid hsolid := by
    have htoken := Kind.isToken_of_isSolid hsolid
    rw [Kind.isToken_of_isInner hk] at htoken
    cases htoken
  line hpart := by
    have htoken := Kind.isToken_of_isPart hpart
    rw [Kind.isToken_of_isInner hk] at htoken
    cases htoken
  inner _ := hleaf
  admits hbuilt := by simp [Kind.isBuilt, hk] at hbuilt
  requires hbuilt := by simp [Kind.isBuilt, hk] at hbuilt

theorem formed_of_isBuilt (hk : t.kind.isBuilt = true)
    (hadmits : ∀ c ∈ t.children, c.kind = .comment ∨ table.admits t.kind c.mark = true)
    (hrequires : ∀ p, table.requires t.kind = some p → ∃ c ∈ t.children, p c.mark = true) :
    t.Formed table where
  token htoken := by simp [Kind.isBuilt, htoken] at hk
  solid hsolid := by simp [Kind.isBuilt, Kind.isToken_of_isSolid hsolid] at hk
  line hpart := by simp [Kind.isBuilt, Kind.isToken_of_isPart hpart] at hk
  inner hinner := by simp [Kind.isBuilt, hinner] at hk
  admits _ := hadmits
  requires _ := hrequires

end Tree

/-- The kinds of nodes that a token can become. -/
def Lexeme.suits (k : Kind) : Lexeme → Bool
  | .comment | .literal _ => k.isSolid
  | .sign _ | .word _ => k.isPart
  | .newline | .stray => false

namespace Lexeme

variable {k : Kind} {l : Lexeme}

theorem isToken_of_suits (h : l.suits k = true) : k.isToken = true := by
  cases l with
  | comment | literal k => exact Kind.isToken_of_isSolid h
  | sign s | word w => exact Kind.isToken_of_isPart h
  | newline | stray => cases h

theorem of_isSolid (h : l.suits k = true) (hk : k.isSolid = true) :
    l = .comment ∨ ∃ k', l = .literal k' := by
  cases l with
  | comment => exact .inl rfl
  | literal k' => exact .inr ⟨k', rfl⟩
  | sign s | word w =>
    have hpart : k.isPart = true := h
    rw [Kind.isPart_of_isSolid hk] at hpart
    cases hpart
  | newline | stray => cases h

theorem isPart_of_suits (h : l.suits k = true) (hk : k.isPart = true) : l.isPart = true := by
  cases l with
  | comment | literal k' =>
    rw [Kind.isPart_of_isSolid h] at hk
    cases hk
  | sign s | word w => rfl
  | newline | stray => cases h

end Lexeme

/-- A terminal whose tokens can become nodes of its kind. -/
def Terminal.isHonest : Terminal → Bool
  | .sign s => Kind.isPart (.sign s)
  | .name k | .word _ k => k.isPart
  | .literal k => k.isSolid

theorem Terminal.suits {t : Terminal} (ht : t.isHonest = true) {l : Lexeme}
    (h : t.accept? l = some t.kind) : l.suits t.kind = true := by
  cases t with
  | sign s | name k | word w k | literal k =>
    cases l with
    | sign s | word w | literal k => first | exact ht | cases h
    | _ => cases h

namespace Rule

variable {ν : Type}

/-- The marks of the nodes that may be there after the rule has run, where those before it have
marks in `ms`. Comments and hidden nodes are left out. -/
def after (marks : ν → List Mark) : Rule ν → List Mark → List Mark
  | .token t, ms => ms ++ [⟨none, t.kind⟩]
  | .seq a b, ms => b.after marks (a.after marks ms)
  | .alt a b, ms => a.after marks ms ++ b.after marks ms
  | .many a, ms => ms ++ a.after marks []
  | .call n, ms => ms ++ marks n
  | .group a, ms => ms ++ a.after marks []
  | .node k _, ms => ms ++ [⟨none, k⟩]
  | .wrap k _ _, _ => [⟨none, k⟩]
  | .role r a, ms => ms ++ (a.after marks []).map (.as r)
  | .done, ms | .newline, ms | .sameLine, ms | .absent _, ms => ms

instance decidableAppends : (a : Rule ν) → Decidable a.Appends
  | .seq a b => @instDecidableAnd _ _ (decidableAppends a) (decidableAppends b)
  | .alt a b => @instDecidableAnd _ _ (decidableAppends a) (decidableAppends b)
  | .many a => decidableAppends a
  | .wrap _ _ _ => .isFalse id
  | .done | .token _ | .newline | .sameLine | .absent _ | .call _ | .group _ | .node _ _
  | .role _ _ => .isTrue trivial

/-- The rule leaves a node whose mark has the property `p`, where the nonterminals in `sure` are
known to add a node. -/
def surely (marks : ν → List Mark) (sure : ν → Bool) : Rule ν → (Mark → Bool) → Bool
  | .token t, p => p ⟨none, t.kind⟩ && !t.kind.isFree
  | .seq a b, p => a.surely marks sure p && decide b.Appends || b.surely marks sure p
  | .alt a b, p => a.surely marks sure p && b.surely marks sure p
  | .call n, p => sure n && (marks n).all p
  | .group a, p => a.surely marks sure p
  | .node k a, p => p ⟨none, k⟩ && !k.isFree && a.surely marks sure fun _ => true
  | .wrap k _ a, p => p ⟨none, k⟩ && !k.isFree && a.surely marks sure fun _ => true
  | .role r a, p => a.surely marks sure fun m => p (m.as r)
  | _, _ => false

/-- Every node that the rule builds has children the table admits and those it requires, where the
nodes before the rule have marks in `ms`. -/
def nests (marks : ν → List Mark) (sure : ν → Bool) (table : Table) :
    Rule ν → List Mark → Bool
  | .token t, _ => t.isHonest
  | .seq a b, ms =>
    a.nests marks sure table ms && b.nests marks sure table (a.after marks ms)
  | .alt a b, ms => a.nests marks sure table ms && b.nests marks sure table ms
  | .many a, ms => a.nests marks sure table (ms ++ a.after marks [])
  | .group a, _ | .role _ a, _ => a.nests marks sure table []
  | .node k a, _ =>
    k.isBuilt && a.nests marks sure table [] && (a.after marks []).all (table.admits k) &&
      ((table.requires k).all fun p => a.surely marks sure p)
  | .wrap k r a, ms =>
    k.isBuilt && a.nests marks sure table [] &&
      ((match r with
        | some r => ms.map (.as r)
        | none => ms) ++ a.after marks []).all (table.admits k) &&
      ((table.requires k).all fun p => a.surely marks sure p)
  | .done, _ | .newline, _ | .sameLine, _ | .absent _, _ | .call _, _ => true

section Calls

variable {marks : ν → List Mark} {sure : ν → Bool} {table : Table}
  {call : ν → List Token → Option State}

/-! ## Marks -/

/-- The nodes are free or have their marks in the list. -/
def Marked (ms : List Mark) (ts : List Tree) : Prop := ∀ t ∈ ts, isFree t ∨ t.mark ∈ ms

theorem Marked.nil (ms : List Mark) : Marked ms [] := by
  intro t ht
  cases ht

theorem Marked.mono {ms ms' : List Mark} {ts : List Tree} (h : Marked ms ts) (hms : ms ⊆ ms') :
    Marked ms' ts := fun t ht => (h t ht).imp_right (hms ·)

theorem Marked.append {ms ms' : List Mark} {ts us : List Tree} (h : Marked ms ts)
    (h' : Marked ms' us) : Marked (ms ++ ms') (ts ++ us) := by
  intro t ht
  rcases List.mem_append.mp ht with ht | ht
  · exact (h t ht).imp_right (List.mem_append_left _)
  · exact (h' t ht).imp_right (List.mem_append_right _)

theorem marked_build (k : Kind) (ts : List Tree) : Marked [⟨none, k⟩] (build k ts) := by
  intro t ht
  unfold build at ht
  dsimp only at ht
  have hbefore : ∀ t ∈ ts.takeWhile (·.kind = .comment), isFree t := by
    intro t ht
    exact .inl (by simpa using List.mem_takeWhile_imp ht)
  split at ht
  · rcases List.mem_append.mp ht with ht | ht
    · exact .inl (hbefore t ht)
    · rw [List.mem_singleton.mp ht]
      exact .inr (List.mem_singleton_self _)
  · exact .inl (hbefore t ht)

theorem Marked.mark {ms : List Mark} {ts : List Tree} (h : Marked ms ts) (r : Role) :
    Marked (ms.map (.as r)) (mark r ts) := by
  intro t ht
  obtain ⟨u, hu, rfl⟩ := List.mem_map.mp ht
  split
  · next hfree => exact .inl hfree
  · next hfree =>
    exact .inr (List.mem_map.mpr ⟨u.mark, (h u hu).resolve_left hfree, rfl⟩)

theorem append_subset_append {ms front back : List Mark} (h : ms ⊆ front ++ back)
    (more : List Mark) : ms ++ more ⊆ front ++ (back ++ more) := by
  rw [← List.append_assoc]
  exact List.append_subset.mpr
    ⟨fun m hm => List.mem_append_left _ (h hm), List.subset_append_right _ _⟩

/-- The nodes before a rule stay there or are left out, and all others do not depend on them. -/
theorem after_subset (a : Rule ν) {ms front back : List Mark} (h : ms ⊆ front ++ back) :
    a.after marks ms ⊆ front ++ a.after marks back := by
  induction a generalizing ms back with
  | token t | many a _ | call n | group a _ | node k a _ | role r a _ =>
    exact append_subset_append h _
  | seq a b iha ihb => exact ihb (iha h)
  | alt a b iha ihb =>
    intro m hm
    rcases List.mem_append.mp hm with hm | hm
    · rcases List.mem_append.mp (iha h hm) with hm | hm
      · exact List.mem_append_left _ hm
      · exact List.mem_append_right _ (List.mem_append_left _ hm)
    · rcases List.mem_append.mp (ihb h hm) with hm | hm
      · exact List.mem_append_left _ hm
      · exact List.mem_append_right _ (List.mem_append_right _ hm)
  | wrap k r a _ => exact List.subset_append_right _ _
  | done | newline | sameLine | absent a _ => exact h

theorem after_many_subset (a : Rule ν) (ms : List Mark) :
    a.after marks (ms ++ a.after marks []) ⊆ ms ++ a.after marks [] := by
  have h : a.after marks (ms ++ a.after marks []) ⊆
      (ms ++ a.after marks []) ++ a.after marks [] := a.after_subset (by simp)
  intro m hm
  rcases List.mem_append.mp (h hm) with hm | hm
  · exact hm
  · exact List.mem_append_right _ hm

/-! ## Tokens -/

theorem skipBlanks_tokens (out : List Tree) (ts : List Token) :
    ∃ cs, (skipBlanks out ts).out = out ++ cs.map (·.tree .comment) ∧
      cs ⊆ ts.filter (·.lexeme = .comment) ∧ (skipBlanks out ts).rest ⊆ ts := by
  induction ts generalizing out with
  | nil => exact ⟨[], (List.append_nil out).symm, List.nil_subset _, List.Subset.refl _⟩
  | cons t ts ih =>
    rw [skipBlanks]
    split
    · next hcomment =>
      obtain ⟨cs, hout, hcs, hrest⟩ := ih (out ++ [t.tree .comment])
      rw [List.filter_cons_of_pos (by simpa using hcomment)]
      exact ⟨t :: cs, by simp [hout], List.cons_subset_cons t hcs,
        List.subset_cons_of_subset t hrest⟩
    · next hcomment =>
      rw [List.filter_cons_of_neg (by simpa using hcomment)]
      split
      · obtain ⟨cs, hout, hcs, hrest⟩ := ih out
        exact ⟨cs, hout, hcs, List.subset_cons_of_subset t hrest⟩
      · exact ⟨[], (List.append_nil out).symm, List.nil_subset _, List.Subset.refl _⟩

theorem skipComments_tokens (out : List Tree) (ts : List Token) :
    ∃ cs, (skipComments out ts).out = out ++ cs.map (·.tree .comment) ∧
      cs ⊆ ts.filter (·.lexeme = .comment) ∧ (skipComments out ts).rest ⊆ ts := by
  induction ts generalizing out with
  | nil => exact ⟨[], (List.append_nil out).symm, List.nil_subset _, List.Subset.refl _⟩
  | cons t ts ih =>
    rw [skipComments]
    split
    · next hcomment =>
      obtain ⟨cs, hout, hcs, hrest⟩ := ih (out ++ [t.tree .comment])
      rw [List.filter_cons_of_pos (by simpa using hcomment)]
      exact ⟨t :: cs, by simp [hout], List.cons_subset_cons t hcs,
        List.subset_cons_of_subset t hrest⟩
    · exact ⟨[], (List.append_nil out).symm, List.nil_subset _, List.Subset.refl _⟩

/-- The step from one state to the next takes tokens off the rest: comments, and then a token with
the property `P` as a node of kind `k`. -/
def Takes (P : Token → Prop) (k : Kind) (s s' : State) : Prop :=
  ∃ cs tok, s'.out = s.out ++ List.map (Token.tree · .comment) cs ++ [tok.tree k] ∧
    cs ⊆ s.rest.filter (·.lexeme = .comment) ∧ tok ∈ s.rest ∧ P tok ∧ s'.rest ⊆ s.rest

theorem takeToken_takes {t : Terminal} {s s' : State} (h : takeToken t s = some s') :
    Takes (fun tok => t.accept? tok.lexeme = some t.kind) t.kind s s' := by
  obtain ⟨cs, hout, hcs, hrest⟩ := skipBlanks_tokens s.out s.rest
  unfold takeToken at h
  dsimp only at h
  split at h
  · cases h
  · next tok rest hnext =>
    obtain ⟨k, hk, rfl⟩ := Option.map_eq_some_iff.mp h
    obtain ⟨rfl, _⟩ := Terminal.accept?_cases hk
    rw [hnext] at hrest
    exact ⟨cs, tok, by rw [hout], hcs, hrest List.mem_cons_self, hk, fun x hx => hrest (.tail _ hx)⟩

theorem takeNewline_takes {s s' : State} (h : takeNewline s = some s') :
    Takes (fun _ => True) .newline s s' := by
  obtain ⟨cs, hout, hcs, hrest⟩ := skipComments_tokens s.out s.rest
  unfold takeNewline at h
  dsimp only at h
  split at h
  · cases h
  · next tok rest hnext =>
    split at h
    · cases h
      rw [hnext] at hrest
      exact ⟨cs, tok, by rw [hout], hcs, hrest List.mem_cons_self, trivial,
        fun x hx => hrest (.tail _ hx)⟩
    · cases h

theorem Takes.marked {P : Token → Prop} {k : Kind} {ms : List Mark} {s s' : State}
    (h : Takes P k s s')
    (hs : Marked ms s.out) : Marked (ms ++ [⟨none, k⟩]) s'.out := by
  obtain ⟨cs, tok, hout, _⟩ := h
  rw [hout, ← List.append_nil ms]
  refine (hs.append ?_).append ?_
  · intro c hc
    obtain ⟨x, _, rfl⟩ := List.mem_map.mp hc
    exact .inl (.inl rfl)
  · intro c hc
    rw [List.mem_singleton.mp hc]
    exact .inr (List.mem_singleton_self _)

/-- The nodes that are there after a rule has run have the marks read off the rule. -/
theorem run_marked (hcall : ∀ n ts s, call n ts = some s → Marked (marks n) s.out) {a : Rule ν}
    {ms : List Mark} {s s' : State} (hs : Marked ms s.out) (h : run call a s = some s') :
    Marked (a.after marks ms) s'.out := by
  induction a generalizing ms s s' with
  | done => cases h; exact hs
  | token t => exact (takeToken_takes h).marked hs
  | newline =>
    -- the hidden node of a line end is free
    intro t ht
    rcases (takeNewline_takes h).marked hs t ht with hfree | hmark
    · exact .inl hfree
    · rcases List.mem_append.mp hmark with hmem | hnew
      · exact .inr hmem
      · exact .inl (.inr (congrArg Mark.kind (List.mem_singleton.mp hnew)))
  | sameLine =>
    simp only [run, Option.ite_none_right_eq_some, Option.some.injEq] at h
    exact h.2 ▸ hs
  | absent a _ =>
    simp only [run, Option.ite_none_left_eq_some, Option.some.injEq] at h
    exact h.2 ▸ hs
  | seq a b iha ihb =>
    obtain ⟨m, hm, hb⟩ := Option.bind_eq_some_iff.mp h
    exact ihb (iha hs hm) hb
  | alt a b iha ihb =>
    simp only [run] at h
    split at h
    · next m hm =>
      cases h
      exact (iha hs hm).mono (List.subset_append_left _ _)
    · exact (ihb hs h).mono (List.subset_append_right _ _)
  | many a iha =>
    cases h
    exact iterate_keeps (P := fun m => Marked (ms ++ a.after marks []) m.out)
      (fun _ _ hm hstep => (iha hm hstep).mono (a.after_many_subset ms)) _
      (hs.mono (List.subset_append_left _ _))
  | call n =>
    obtain ⟨m, hm, rfl⟩ := Option.map_eq_some_iff.mp h
    exact hs.append (hcall n _ m hm)
  | group a iha =>
    obtain ⟨m, hm, rfl⟩ := Option.map_eq_some_iff.mp h
    exact hs.append (iha (.nil []) hm)
  | node k a _ =>
    obtain ⟨m, hm, rfl⟩ := Option.map_eq_some_iff.mp h
    exact hs.append (marked_build k m.out)
  | wrap k r a _ =>
    obtain ⟨m, hm, rfl⟩ := Option.map_eq_some_iff.mp h
    exact marked_build k _
  | role r a iha =>
    obtain ⟨m, hm, rfl⟩ := Option.map_eq_some_iff.mp h
    exact hs.append ((iha (.nil []) hm).mark r)

/-! ## Nodes that are sure to be there -/

/-- One of the nodes is not free and has a mark with the property `p`. -/
def Holds (p : Mark → Bool) (ts : List Tree) : Prop := ∃ t ∈ ts, ¬ isFree t ∧ p t.mark = true

theorem Holds.append_left {p : Mark → Bool} {ts : List Tree} (h : Holds p ts) (us : List Tree) :
    Holds p (us ++ ts) := by
  obtain ⟨t, ht, hp⟩ := h
  exact ⟨t, List.mem_append_right _ ht, hp⟩

theorem not_isFree {t : Tree} (h : t.kind.isFree = false) : ¬ isFree t := by
  rintro (hk | hk) <;> rw [hk] at h <;> cases h

/-- A node is built of nodes that are not all free. -/
theorem Holds.build {p q : Mark → Bool} {k : Kind} {ts : List Tree} (h : Holds q ts)
    (hp : p ⟨none, k⟩ = true) (hk : k.isFree = false) : Holds p (build k ts) := by
  obtain ⟨x, hx, hfree, _⟩ := h
  obtain ⟨t, ht, htk⟩ := exists_mem_build k hx hfree
  have hfree : ¬ isFree t := not_isFree (htk ▸ hk)
  have hmark := (marked_build k ts t ht).resolve_left hfree
  rw [List.mem_singleton] at hmark
  exact ⟨t, ht, hfree, hmark ▸ hp⟩

/-- A rule leaves the node that it is sure to leave. -/
theorem run_surely (hmarks : ∀ n ts s, call n ts = some s → Marked (marks n) s.out)
    (hcall : ∀ n ts s, sure n = true → call n ts = some s → ∃ t ∈ s.out, ¬ isFree t)
    {a : Rule ν} {p : Mark → Bool} (ha : a.surely marks sure p = true) {s s' : State}
    (h : run call a s = some s') : Holds p s'.out := by
  induction a generalizing p s s' with
  | token t =>
    simp only [surely, Bool.and_eq_true, Bool.not_eq_true'] at ha
    obtain ⟨cs, tok, hout, _⟩ := takeToken_takes h
    refine ⟨tok.tree t.kind, ?_, not_isFree ha.2, ha.1⟩
    rw [hout]
    exact List.mem_append_right _ (List.mem_singleton_self _)
  | seq a b iha ihb =>
    obtain ⟨m, hm, hb⟩ := Option.bind_eq_some_iff.mp h
    simp only [surely, Bool.or_eq_true, Bool.and_eq_true, decide_eq_true_eq] at ha
    rcases ha with ⟨hsure, happends⟩ | hsure
    · obtain ⟨t, ht, hp⟩ := iha hsure hm
      exact ⟨t, (run_appends happends hb).subset ht, hp⟩
    · exact ihb hsure hb
  | alt a b iha ihb =>
    simp only [surely, Bool.and_eq_true] at ha
    simp only [run] at h
    split at h
    · next m hm => cases h; exact iha ha.1 hm
    · exact ihb ha.2 h
  | call n =>
    obtain ⟨m, hm, rfl⟩ := Option.map_eq_some_iff.mp h
    simp only [surely, Bool.and_eq_true, List.all_eq_true] at ha
    obtain ⟨t, ht, hfree⟩ := hcall n _ m ha.1 hm
    have hmark := (hmarks n _ m hm t ht).resolve_left hfree
    exact ⟨t, List.mem_append_right _ ht, hfree, ha.2 _ hmark⟩
  | group a iha =>
    obtain ⟨m, hm, rfl⟩ := Option.map_eq_some_iff.mp h
    exact (iha ha hm).append_left _
  | node k a iha =>
    obtain ⟨m, hm, rfl⟩ := Option.map_eq_some_iff.mp h
    simp only [surely, Bool.and_eq_true, Bool.not_eq_true'] at ha
    exact ((iha ha.2 hm).build ha.1.1 ha.1.2).append_left _
  | wrap k r a iha =>
    obtain ⟨m, hm, rfl⟩ := Option.map_eq_some_iff.mp h
    simp only [surely, Bool.and_eq_true, Bool.not_eq_true'] at ha
    exact ((iha ha.2 hm).append_left _).build ha.1.1 ha.1.2
  | role r a iha =>
    obtain ⟨m, hm, rfl⟩ := Option.map_eq_some_iff.mp h
    obtain ⟨t, ht, hfree, hp⟩ := iha ha hm
    have hmark : { t with role := some r } ∈ mark r m.out :=
      List.mem_map.mpr ⟨t, ht, if_neg hfree⟩
    exact ⟨_, List.mem_append_right _ hmark, hfree, hp⟩
  | _ => cases ha

/-- The rule leaves a node that is not free, where `b` says that there is one before it. -/
def leaves (sure : ν → Bool) : Bool → Rule ν → Bool
  | b, .token t => b || !t.kind.isFree
  | b, .seq a c => c.leaves sure (a.leaves sure b)
  | b, .alt a c => a.leaves sure b && c.leaves sure b
  | b, .many a => b && a.leaves sure true
  | b, .call n => b || sure n
  | b, .group a | b, .role _ a => b || a.leaves sure false
  | b, .node k a => b || !k.isFree && a.leaves sure false
  | b, .wrap k _ a => !k.isFree && (b || a.leaves sure false)
  | b, .done | b, .newline | b, .sameLine | b, .absent _ => b

theorem Holds.mark {ts : List Tree} (h : Holds (fun _ => true) ts) (r : Role) :
    Holds (fun _ => true) (mark r ts) := by
  obtain ⟨t, ht, hfree, _⟩ := h
  exact ⟨{ t with role := some r }, List.mem_map.mpr ⟨t, ht, if_neg hfree⟩, hfree, rfl⟩

theorem Holds.append_right {p : Mark → Bool} {ts : List Tree} (h : Holds p ts) (us : List Tree) :
    Holds p (ts ++ us) := by
  obtain ⟨t, ht, hp⟩ := h
  exact ⟨t, List.mem_append_left _ ht, hp⟩

/-- A rule leaves a node where it is said to. -/
theorem run_leaves (hcall : ∀ n ts s, sure n = true → call n ts = some s →
      Holds (fun _ => true) s.out) {a : Rule ν} {b : Bool} (ha : a.leaves sure b = true)
    {s s' : State} (hs : b = true → Holds (fun _ => true) s.out)
    (h : run call a s = some s') : Holds (fun _ => true) s'.out := by
  have hnil : ∀ ts : List Token, false = true → Holds (fun _ => true) (State.mk [] ts).out :=
    fun _ hb => by cases hb
  induction a generalizing b s s' with
  | done => cases h; exact hs ha
  | token t =>
    obtain ⟨cs, tok, hout, _⟩ := takeToken_takes h
    rw [hout, List.append_assoc]
    rcases Bool.or_eq_true_iff.mp ha with hb | hk
    · exact (hs hb).append_right _
    · rw [Bool.not_eq_true'] at hk
      exact ⟨tok.tree t.kind, by simp, not_isFree hk, rfl⟩
  | newline =>
    obtain ⟨cs, tok, hout, _⟩ := takeNewline_takes h
    rw [hout, List.append_assoc]
    exact (hs ha).append_right _
  | sameLine =>
    simp only [run, Option.ite_none_right_eq_some, Option.some.injEq] at h
    exact h.2 ▸ hs ha
  | absent a _ =>
    simp only [run, Option.ite_none_left_eq_some, Option.some.injEq] at h
    exact h.2 ▸ hs ha
  | seq a c iha ihc =>
    obtain ⟨m, hm, hc⟩ := Option.bind_eq_some_iff.mp h
    exact ihc ha (fun hleaves => iha hleaves hs hm) hc
  | alt a c iha ihc =>
    obtain ⟨ha, hc⟩ := Bool.and_eq_true_iff.mp ha
    simp only [run] at h
    split at h
    · next m hm => cases h; exact iha ha hs hm
    · exact ihc hc hs h
  | many a iha =>
    cases h
    obtain ⟨hb, ha⟩ := Bool.and_eq_true_iff.mp ha
    exact iterate_keeps (P := fun m => Holds (fun _ => true) m.out)
      (fun _ _ hm hstep => iha ha (fun _ => hm) hstep) _ (hs hb)
  | call n =>
    obtain ⟨m, hm, rfl⟩ := Option.map_eq_some_iff.mp h
    rcases Bool.or_eq_true_iff.mp ha with hb | hn
    · exact (hs hb).append_right _
    · exact (hcall n _ m hn hm).append_left _
  | group a iha =>
    obtain ⟨m, hm, rfl⟩ := Option.map_eq_some_iff.mp h
    rcases Bool.or_eq_true_iff.mp ha with hb | ha
    · exact (hs hb).append_right _
    · exact (iha ha (hnil _) hm).append_left _
  | node k a iha =>
    obtain ⟨m, hm, rfl⟩ := Option.map_eq_some_iff.mp h
    rcases Bool.or_eq_true_iff.mp ha with hb | ha
    · exact (hs hb).append_right _
    · simp only [Bool.and_eq_true, Bool.not_eq_true'] at ha
      exact ((iha ha.2 (hnil _) hm).build rfl ha.1).append_left _
  | wrap k r a iha =>
    obtain ⟨m, hm, rfl⟩ := Option.map_eq_some_iff.mp h
    simp only [leaves, Bool.and_eq_true, Bool.not_eq_true'] at ha
    refine Holds.build (q := fun _ => true) ?_ rfl ha.1
    rcases Bool.or_eq_true_iff.mp ha.2 with hb | ha
    · refine Holds.append_right ?_ _
      cases r with
      | none => exact hs hb
      | some r => exact (hs hb).mark r
    · exact (iha ha (hnil _) hm).append_left _
  | role r a iha =>
    obtain ⟨m, hm, rfl⟩ := Option.map_eq_some_iff.mp h
    rcases Bool.or_eq_true_iff.mp ha with hb | ha
    · exact (hs hb).append_right _
    · exact ((iha ha (hnil _) hm).mark r).append_left _

/-! ## Nodes that agree with a table -/

/-- The nodes built so far agree with the table, hidden ones aside, and the tokens left are
whole. -/
structure State.Formed (table : Table) (s : State) : Prop where
  nodes : ∀ t ∈ s.out, t.kind ≠ .newline → ∀ n ∈ t.walk, n.Formed table
  tokens : ∀ tok ∈ s.rest, tok.Whole

/-- A whole token becomes a node that agrees with every table. -/
theorem tree_formed {tok : Token} (h : tok.Whole) {k : Kind} (hk : tok.lexeme.suits k = true) :
    ∀ n ∈ (tok.tree k).walk, n.Formed table := by
  intro n hn
  rcases Tree.mem_walk_iff.mp hn with rfl | ⟨c, hc, hn⟩
  · refine Tree.formed_of_isToken (Lexeme.isToken_of_suits hk) h.start_lt h.leaf ?_ ?_
    · exact fun hsolid => h.solid (Lexeme.of_isSolid hk hsolid)
    · intro hpart
      refine ⟨fun hnil => ?_, h.line (Lexeme.isPart_of_suits hk hpart)⟩
      have hlt := h.start_lt
      rw [Token.stop, show tok.bytes = [] from hnil] at hlt
      exact absurd hlt (lt_irrefl _)
  · obtain ⟨hleaf, hinner⟩ := h.leaf c hc
    rcases Tree.mem_walk_iff.mp hn with rfl | ⟨d, hd, _⟩
    · exact Tree.formed_of_isInner hinner hleaf
    · rw [hleaf] at hd
      cases hd

/-- A node agrees with a table that admits what it is built of and requires nothing else. -/
theorem build_formed {k : Kind} {ts : List Tree}
    (hts : ∀ t ∈ ts, t.kind ≠ .newline → ∀ n ∈ t.walk, n.Formed table) (hk : k.isBuilt = true)
    (hadmits : ∀ t ∈ ts, isFree t ∨ table.admits k t.mark = true)
    (hrequires : ∀ p, table.requires k = some p → Holds p ts) :
    ∀ t ∈ build k ts, t.kind ≠ .newline → ∀ n ∈ t.walk, n.Formed table := by
  have hsplit : ts.takeWhile (·.kind = .comment) ++ ts.dropWhile (·.kind = .comment) = ts :=
    List.takeWhile_append_dropWhile
  have hbefore : ∀ t ∈ ts.takeWhile (·.kind = .comment), t ∈ ts := by
    intro t ht
    rw [← hsplit]
    exact List.mem_append_left _ ht
  have hown : ∀ c ∈ (ts.dropWhile (·.kind = .comment)).filter (·.kind ≠ .newline),
      c ∈ ts ∧ c.kind ≠ .newline := by
    intro c hc
    obtain ⟨hmem, hkind⟩ := List.mem_filter.mp hc
    refine ⟨?_, by simpa using hkind⟩
    rw [← hsplit]
    exact List.mem_append_right _ hmem
  intro t ht htk
  unfold build at ht
  dsimp only at ht
  split at ht
  · rcases List.mem_append.mp ht with ht | ht
    · exact hts t (hbefore t ht) htk
    · obtain rfl := List.mem_singleton.mp ht
      intro n hn
      rcases Tree.mem_walk_iff.mp hn with rfl | ⟨c, hc, hn⟩
      · refine Tree.formed_of_isBuilt hk ?_ ?_
        · intro c hc
          obtain ⟨hmem, hkind⟩ := hown c hc
          rcases hadmits c hmem with (hcomment | hnewline) | hadmits
          · exact .inl hcomment
          · exact absurd hnewline hkind
          · exact .inr hadmits
        · intro p hp
          obtain ⟨c, hc, hfree, hpc⟩ := hrequires p hp
          exact ⟨c, mem_own hc hfree, hpc⟩
      · exact hts c (hown c hc).1 (hown c hc).2 n hn
  · exact hts t (hbefore t ht) htk

/-- Giving a part to nodes keeps them in agreement with a table, which looks at the parts of
children only. -/
theorem mark_formed {r : Role} {ts : List Tree}
    (hts : ∀ t ∈ ts, t.kind ≠ .newline → ∀ n ∈ t.walk, n.Formed table) :
    ∀ t ∈ mark r ts, t.kind ≠ .newline → ∀ n ∈ t.walk, n.Formed table := by
  intro t ht htk
  obtain ⟨u, hu, rfl⟩ := List.mem_map.mp ht
  split at htk
  · next hfree =>
    rw [if_pos hfree]
    exact hts u hu htk
  · next hfree =>
    rw [if_neg hfree]
    intro n hn
    rcases Tree.mem_walk_iff.mp hn with rfl | ⟨c, hc, hn⟩
    · have hformed := hts u hu htk u u.mem_walk_self
      exact ⟨hformed.token, hformed.solid, hformed.line, hformed.inner, hformed.admits,
        hformed.requires⟩
    · exact hts u hu htk n (Tree.mem_walk_iff.mpr (.inr ⟨c, hc, hn⟩))

namespace State.Formed

theorem start {ts : List Token} (h : ∀ tok ∈ ts, tok.Whole) : Formed table ⟨[], ts⟩ :=
  ⟨fun _ ht => (List.not_mem_nil ht).elim, h⟩

theorem append {s m : State} {out : List Tree} (hs : Formed table s)
    (hout : ∀ t ∈ out, t.kind ≠ .newline → ∀ n ∈ t.walk, n.Formed table)
    (hm : ∀ tok ∈ m.rest, tok.Whole) : Formed table ⟨s.out ++ out, m.rest⟩ := by
  refine ⟨?_, hm⟩
  intro t ht
  rcases List.mem_append.mp ht with ht | ht
  · exact hs.nodes t ht
  · exact hout t ht

/-- Comments are whole tokens, and so become nodes that agree with every table. -/
theorem comments {s : State} (hs : Formed table s) {cs : List Token}
    (hcs : cs ⊆ s.rest.filter (·.lexeme = .comment)) :
    ∀ t ∈ cs.map (·.tree .comment), ∀ n ∈ t.walk, n.Formed table := by
  intro t ht
  obtain ⟨c, hc, rfl⟩ := List.mem_map.mp ht
  obtain ⟨hmem, hcomment⟩ := List.mem_filter.mp (hcs hc)
  exact tree_formed (hs.tokens c hmem) (by rw [of_decide_eq_true hcomment]; rfl)

theorem takes {P : Token → Prop} {k : Kind} {s s' : State} (hs : Formed table s)
    (h : Takes P k s s')
    (hk : k ≠ .newline → ∀ tok, P tok → tok.lexeme.suits k = true) : Formed table s' := by
  obtain ⟨cs, tok, hout, hcs, htok, hP, hrest⟩ := h
  refine ⟨?_, fun x hx => hs.tokens x (hrest hx)⟩
  rw [hout]
  intro t ht htk
  rcases List.mem_append.mp ht with ht | ht
  · rcases List.mem_append.mp ht with ht | ht
    · exact hs.nodes t ht htk
    · exact hs.comments hcs t ht
  · obtain rfl := List.mem_singleton.mp ht
    exact tree_formed (hs.tokens tok htok) (hk htk tok hP)

end State.Formed

/-- A node that a rule in agreement with a table is built of agrees with it. -/
theorem run_build_formed (hmarks : ∀ n ts s, call n ts = some s → Marked (marks n) s.out)
    (hsure : ∀ n ts s, sure n = true → call n ts = some s → ∃ t ∈ s.out, ¬ isFree t)
    {k : Kind} {a : Rule ν} {ms : List Mark} {front : List Tree} {s m : State}
    (hk : k.isBuilt = true) (hadmits : (ms ++ a.after marks []).all (table.admits k) = true)
    (hrequires : ((table.requires k).all fun p => a.surely marks sure p) = true)
    (hm : run call a ⟨[], s.rest⟩ = some m) (hms : Marked ms front)
    (hfront : ∀ t ∈ front, t.kind ≠ .newline → ∀ n ∈ t.walk, n.Formed table)
    (hnodes : m.Formed table) :
    ∀ t ∈ build k (front ++ m.out), t.kind ≠ .newline → ∀ n ∈ t.walk, n.Formed table := by
  refine build_formed ?_ hk ?_ ?_
  · intro t ht
    rcases List.mem_append.mp ht with ht | ht
    · exact hfront t ht
    · exact hnodes.nodes t ht
  · intro t ht
    have hmarked := hms.append (run_marked hmarks (.nil []) hm)
    exact (hmarked t ht).imp_right fun hmem => List.all_eq_true.mp hadmits _ hmem
  · intro p hp
    rw [hp] at hrequires
    exact (run_surely hmarks hsure hrequires hm).append_left front

/-- A rule that agrees with a table builds nodes that do, if running a nonterminal does. -/
theorem run_formed (hmarks : ∀ n ts s, call n ts = some s → Marked (marks n) s.out)
    (hsure : ∀ n ts s, sure n = true → call n ts = some s → ∃ t ∈ s.out, ¬ isFree t)
    (hcall : ∀ n ts s, (∀ tok ∈ ts, tok.Whole) → call n ts = some s → s.Formed table)
    {a : Rule ν} {ms : List Mark} (ha : a.nests marks sure table ms = true) {s s' : State}
    (hms : Marked ms s.out) (hs : s.Formed table) (h : run call a s = some s') :
    s'.Formed table := by
  induction a generalizing ms s s' with
  | done => cases h; exact hs
  | token t =>
    exact hs.takes (takeToken_takes h) fun _ _ haccept => Terminal.suits ha haccept
  | newline => exact hs.takes (takeNewline_takes h) fun hne => absurd rfl hne
  | sameLine =>
    simp only [run, Option.ite_none_right_eq_some, Option.some.injEq] at h
    exact h.2 ▸ hs
  | absent a _ =>
    simp only [run, Option.ite_none_left_eq_some, Option.some.injEq] at h
    exact h.2 ▸ hs
  | seq a b iha ihb =>
    obtain ⟨m, hm, hb⟩ := Option.bind_eq_some_iff.mp h
    simp only [nests, Bool.and_eq_true] at ha
    exact ihb ha.2 (run_marked hmarks hms hm) (iha ha.1 hms hs hm) hb
  | alt a b iha ihb =>
    simp only [nests, Bool.and_eq_true] at ha
    simp only [run] at h
    split at h
    · next m hm => cases h; exact iha ha.1 hms hs hm
    · exact ihb ha.2 hms hs h
  | many a iha =>
    cases h
    -- the nodes there before one more round have the marks of any number of rounds
    exact (iterate_keeps (P := fun m => Marked (ms ++ a.after marks []) m.out ∧ m.Formed table)
      (fun _ _ hm hstep => ⟨(run_marked hmarks hm.1 hstep).mono (a.after_many_subset ms),
        iha ha hm.1 hm.2 hstep⟩) _ ⟨hms.mono (List.subset_append_left _ _), hs⟩).2
  | call n =>
    obtain ⟨m, hm, rfl⟩ := Option.map_eq_some_iff.mp h
    have hn := hcall n _ m hs.tokens hm
    exact hs.append hn.nodes hn.tokens
  | group a iha =>
    obtain ⟨m, hm, rfl⟩ := Option.map_eq_some_iff.mp h
    have hn := iha ha (.nil []) (.start hs.tokens) hm
    exact hs.append hn.nodes hn.tokens
  | node k a iha =>
    obtain ⟨m, hm, rfl⟩ := Option.map_eq_some_iff.mp h
    simp only [nests, Bool.and_eq_true] at ha
    obtain ⟨⟨⟨hk, hnests⟩, hadmits⟩, hrequires⟩ := ha
    have hn := iha hnests (.nil []) (.start hs.tokens) hm
    exact hs.append (run_build_formed hmarks hsure hk hadmits hrequires hm (.nil [])
      (fun _ ht => by cases ht) hn) hn.tokens
  | wrap k r a iha =>
    obtain ⟨m, hm, rfl⟩ := Option.map_eq_some_iff.mp h
    simp only [nests, Bool.and_eq_true] at ha
    obtain ⟨⟨⟨hk, hnests⟩, hadmits⟩, hrequires⟩ := ha
    have hn := iha hnests (.nil []) (.start hs.tokens) hm
    refine ⟨?_, hn.tokens⟩
    cases r with
    | none => exact run_build_formed hmarks hsure hk hadmits hrequires hm hms hs.nodes hn
    | some r =>
      exact run_build_formed hmarks hsure hk hadmits hrequires hm (hms.mark r)
        (mark_formed hs.nodes) hn
  | role r a iha =>
    obtain ⟨m, hm, rfl⟩ := Option.map_eq_some_iff.mp h
    have hn := iha ha (.nil []) (.start hs.tokens) hm
    exact hs.append (mark_formed hn.nodes) hn.tokens

/-! ## Grammars -/

/-- The marks and the sure nonterminals are those of the grammar. -/
structure Describes (grammar : ν → Rule ν) (marks : ν → List Mark) (sure : ν → Bool) : Prop where
  adds : ∀ n, (grammar n).after marks [] ⊆ marks n
  fills : ∀ n, sure n = true → (grammar n).surely marks sure (fun _ => true) = true

variable {grammar : ν → Rule ν}

theorem Describes.marked (hg : Describes grammar marks sure) (fuel : Nat) (n : ν)
    (ts : List Token) (s : State) (h : derive grammar fuel n ts = some s) :
    Marked (marks n) s.out := by
  induction fuel generalizing n ts s with
  | zero => cases h
  | succ fuel ih => exact (run_marked ih (.nil []) h).mono (hg.adds n)

theorem Describes.holds (hg : Describes grammar marks sure) (fuel : Nat) (n : ν)
    (ts : List Token) (s : State) (hn : sure n = true) (h : derive grammar fuel n ts = some s) :
    ∃ t ∈ s.out, ¬ isFree t := by
  induction fuel generalizing n ts s with
  | zero => cases h
  | succ fuel ih =>
    obtain ⟨t, ht, hfree, _⟩ := run_surely (hg.marked fuel) ih (hg.fills n hn) h
    exact ⟨t, ht, hfree⟩

/-- A grammar whose rules agree with a table builds nodes that do. -/
theorem derive_formed (hg : Describes grammar marks sure)
    (hnests : ∀ n, (grammar n).nests marks sure table [] = true) (fuel : Nat) (n : ν)
    (ts : List Token) (s : State) (hts : ∀ tok ∈ ts, tok.Whole)
    (h : derive grammar fuel n ts = some s) : s.Formed table := by
  induction fuel generalizing n ts s with
  | zero => cases h
  | succ fuel ih =>
    exact run_formed (hg.marked fuel) (hg.holds fuel) ih (hnests n) (.nil []) (.start hts) h

end Calls

end Rule

namespace Grammar

/-- The kinds of types that are not in parentheses. -/
def typeKinds : List Kind :=
  [.genericType, .qualifiedType, .typeIdentifier, .pointerType, .sliceType, .arrayType, .mapType,
   .structType, .interfaceType, .functionType, .channelType]

/-- The kinds of operands with what follows them. -/
def operandKinds : List Kind :=
  [.identifier, .nilValue, .trueValue, .falseValue, .iotaValue, .interpretedStringLiteral,
   .rawStringLiteral, .intLiteral, .floatLiteral, .imaginaryLiteral, .runeLiteral,
   .parenthesizedExpression, .funcLiteral, .compositeLiteral, .typeConversionExpression,
   .typeInstantiationExpression, .selectorExpression, .indexExpression, .sliceExpression,
   .typeAssertionExpression, .callExpression]

/-- The kinds of simple statements. -/
def simpleKinds : List Kind :=
  [.shortVarDeclaration, .assignmentStatement, .sendStatement, .incStatement, .decStatement,
   .expressionStatement]

/-- The kinds of statements. -/
def statementKinds : List Kind :=
  [.returnStatement, .ifStatement, .forStatement, .typeSwitchStatement,
   .expressionSwitchStatement, .selectStatement, .goStatement, .deferStatement, .breakStatement,
   .continueStatement, .gotoStatement, .fallthroughStatement, .varDeclaration, .constDeclaration,
   .typeDeclaration, .block, .labeledStatement, .emptyStatement] ++ simpleKinds

/-- The kinds of what stands at the top level only. -/
def topKinds : List Kind :=
  [.functionDeclaration, .methodDeclaration, .importDeclaration, .packageClause]

/-- The kinds of the nodes that a nonterminal stands for. -/
def nodeKinds : Nonterminal → List Kind
  | .type _ => .parenthesizedType :: typeKinds
  | .simpleType _ => typeKinds
  | .parameterList => [.parameterList]
  | .tier _ _ => .binaryExpression :: .unaryExpression :: operandKinds
  | .unary _ => .unaryExpression :: operandKinds
  | .primary _ => operandKinds
  | .literalValue => [.literalValue]
  | .block => [.block]
  | .statement => statementKinds
  | .simple _ _ => simpleKinds
  | .ifStatement => [.ifStatement]
  | .top => topKinds
  | .sourceFile => .sign .semicolon :: topKinds ++ statementKinds

/-- The marks of the nodes that a nonterminal stands for: they play no part yet. -/
def marks (n : Nonterminal) : List Mark := (nodeKinds n).map (⟨none, ·⟩)

/-- The nonterminals that open with a bracket of their own, so that they stand for a node. -/
def sure : Nonterminal → Bool
  | .parameterList | .literalValue | .block => true
  | _ => false

/-- Every place where an expression may stand. -/
def places : List Place :=
  [false, true].flatMap fun lined => [false, true].flatMap fun braced =>
    [false, true].map fun apart => ⟨lined, braced, apart⟩

/-- The nonterminals, with one tier for all those that bind tighter than every operator. -/
def nonterminals : List Nonterminal :=
  [.type false, .type true, .simpleType false, .simpleType true, .parameterList, .literalValue,
   .block, .statement, .ifStatement, .top, .sourceFile] ++
  places.flatMap fun p =>
    .unary p :: .primary p :: (places.map (.simple p) ++ (List.range 6).map (.tier p))

theorem mem_places (p : Place) : p ∈ places := by
  obtain ⟨_ | _, _ | _, _ | _⟩ := p <;> decide

theorem mem_nonterminals_of_place (p : Place) {n : Nonterminal}
    (hn : n ∈ .unary p :: .primary p :: (places.map (.simple p) ++ (List.range 6).map (.tier p))) :
    n ∈ nonterminals :=
  List.mem_append_right _ (List.mem_flatMap.mpr ⟨p, mem_places p, hn⟩)

/-- There are no more rules than those of the nonterminals listed. -/
theorem exists_mem_nonterminals (n : Nonterminal) :
    ∃ m ∈ nonterminals, grammar m = grammar n ∧ marks m = marks n ∧ sure m = sure n := by
  cases n with
  | type lined | simpleType lined => cases lined <;> exact ⟨_, by decide, rfl, rfl, rfl⟩
  | tier p n =>
    by_cases hn : n < 6
    · exact ⟨.tier p n, mem_nonterminals_of_place p (by simp [hn]), rfl, rfl, rfl⟩
    · -- from the fifth on there is no operator left
      refine ⟨.tier p 5, mem_nonterminals_of_place p (by simp), ?_, rfl, rfl⟩
      have hnone : tiers[n]? = none := List.getElem?_eq_none (by change 5 ≤ n; omega)
      change tierRule p 5 = tierRule p n
      rw [tierRule, tierRule, hnone]
      rfl
  | unary p => exact ⟨.unary p, mem_nonterminals_of_place p (by simp), rfl, rfl, rfl⟩
  | primary p => exact ⟨.primary p, mem_nonterminals_of_place p (by simp), rfl, rfl, rfl⟩
  | simple p q =>
    exact ⟨.simple p q, mem_nonterminals_of_place p (by simp [mem_places]), rfl, rfl, rfl⟩
  | _ => exact ⟨_, by decide, rfl, rfl, rfl⟩

/-- The nonterminals that are not listed are tiers without operators. -/
theorem mem_nonterminals_or (n : Nonterminal) :
    n ∈ nonterminals ∨ ∃ p m, n = .tier p (m + 5) := by
  cases n with
  | type lined | simpleType lined => cases lined <;> exact .inl (by decide)
  | tier p n =>
    by_cases hn : n < 6
    · exact .inl (mem_nonterminals_of_place p (by simp [hn]))
    · exact .inr ⟨p, n - 5, by rw [Nat.sub_add_cancel (by omega)]⟩
  | unary p | primary p => exact .inl (mem_nonterminals_of_place p (by simp))
  | simple p q => exact .inl (mem_nonterminals_of_place p (by simp [mem_places]))
  | _ => exact .inl (by decide)

/-- Every nonterminal but that of a file leaves a node, wherever it fits. -/
theorem grammar_leaves (n : Nonterminal) (hn : n ≠ .sourceFile) :
    (grammar n).leaves (fun n => n ≠ .sourceFile) false = true := by
  have hlisted : ∀ n ∈ nonterminals, n ≠ .sourceFile →
      (grammar n).leaves (fun n => n ≠ .sourceFile) false = true := by
    decide +kernel
  rcases mem_nonterminals_or n with hmem | ⟨p, m, rfl⟩
  · exact hlisted n hmem hn
  · simp [grammar, tierRule, tiers, Rule.leaves]

theorem derive_holds (fuel : Nat) (n : Nonterminal) (hn : n ≠ .sourceFile) (ts : List Token)
    (s : Rule.State) (h : Rule.derive grammar fuel n ts = some s) :
    Rule.Holds (fun _ => true) s.out := by
  induction fuel generalizing n ts s with
  | zero => cases h
  | succ fuel ih =>
    exact Rule.run_leaves (fun m us s hm hs => ih m (of_decide_eq_true hm) us s hs)
      (grammar_leaves n hn) (fun hb => by cases hb) h

theorem grammar_describes : Rule.Describes grammar marks sure where
  adds n := by
    have hall : ∀ n ∈ nonterminals,
        ((grammar n).after marks []).all (decide <| · ∈ marks n) = true := by
      decide +kernel
    obtain ⟨m, hm, hgrammar, hmarks, _⟩ := exists_mem_nonterminals n
    have hn := hall m hm
    rw [hgrammar, hmarks, List.all_eq_true] at hn
    exact fun k hk => of_decide_eq_true (hn k hk)
  fills n := by
    have hall : ∀ n ∈ nonterminals, sure n = true →
        (grammar n).surely marks sure (fun _ => true) = true := by
      decide +kernel
    obtain ⟨m, hm, hgrammar, _, hsure⟩ := exists_mem_nonterminals n
    rw [← hgrammar, ← hsure]
    exact hall m hm

/-- The rules of the grammar agree with the table, and so does a file. -/
structure Agrees (table : Table) : Prop where
  rules : ∀ n ∈ nonterminals, (grammar n).nests marks sure table [] = true
  file : (marks .sourceFile).all (table.admits .sourceFile) = true
  free : (table.requires .sourceFile).isNone = true

end Grammar

/-- Every node of a parsed tree agrees with a table that the grammar agrees with. -/
theorem parse?_formed {table : Table} (htable : Grammar.Agrees table) {src : Bytes} {t n : Tree}
    (h : parse? src = some t) (hn : n ∈ t.walk) : n.Formed table := by
  obtain ⟨s, hs, hrest⟩ := Option.bind_eq_some_iff.mp h
  have hrules : ∀ n, (grammar n).nests Grammar.marks Grammar.sure table [] = true := by
    intro n
    obtain ⟨m, hm, hgrammar, _⟩ := Grammar.exists_mem_nonterminals n
    exact hgrammar ▸ htable.rules m hm
  have hformed := Rule.derive_formed Grammar.grammar_describes hrules _ _ _ _
    (fun tok htok => Token.scan_whole htok) hs
  have hmarked := Grammar.grammar_describes.marked _ _ _ _ hs
  obtain ⟨cs, hout, hcs, _⟩ := Rule.skipBlanks_tokens s.out s.rest
  simp only [Option.ite_none_right_eq_some, Option.some.injEq] at hrest
  obtain ⟨_, rfl⟩ := hrest
  rw [hout] at hn
  -- a child of the file is a node that the rule of files has left or a comment after them
  have hchild : ∀ c ∈ s.out ++ cs.map (·.tree .comment), c.kind ≠ .newline →
      (c.kind = .comment ∨ table.admits .sourceFile c.mark = true) ∧
        ∀ n ∈ c.walk, n.Formed table := by
    intro c hc hk
    rcases List.mem_append.mp hc with hc | hc
    · refine ⟨?_, hformed.nodes c hc hk⟩
      rcases hmarked c hc with (hcomment | hnewline) | hmark
      · exact .inl hcomment
      · exact absurd hnewline hk
      · exact .inr (List.all_eq_true.mp htable.file _ hmark)
    · obtain ⟨tok, htok, rfl⟩ := List.mem_map.mp hc
      exact ⟨.inl rfl, hformed.comments hcs _ (List.mem_map_of_mem htok)⟩
  have hown : ∀ c ∈ (fileTree src.length (s.out ++ cs.map (·.tree .comment))).children,
      c ∈ s.out ++ cs.map (·.tree .comment) ∧ c.kind ≠ .newline := by
    intro c hc
    obtain ⟨hmem, hk⟩ := List.mem_filter.mp hc
    exact ⟨hmem, by simpa using hk⟩
  rcases Tree.mem_walk_iff.mp hn with rfl | ⟨c, hc, hn⟩
  · refine Tree.formed_of_isBuilt rfl (fun c hc => (hchild c (hown c hc).1 (hown c hc).2).1) ?_
    intro p hp
    have hnone := Option.isNone_iff_eq_none.mp htable.free
    rw [show (fileTree _ _).kind = .sourceFile from rfl, hnone] at hp
    cases hp
  · exact (hchild c (hown c hc).1 (hown c hc).2).2 n hn

end CtxThread.Code
