import CtxThread.Proofs.Code.Spends
import CtxThread.Proofs.Code.Parens

/-!
# Nodes that are set apart

Between two statements of a list stands a line end or a semicolon, and between two elements of a
composite literal a comma. Whether a rule leaves something between the nodes it builds can be read
off the rule.

## Main definitions

- `Rule.spaced?`: no two nodes follow each other without a token between them
- `Rule.spaces?`: what a rule does to that

## Main statements

- `Rule.run_spaced`: what a rule does to that is what it says
- `statements_apart`: two statements of a body do not touch
-/

namespace CtxThread.Code

namespace Rule

variable {ν : Type}

/-- Whether the nodes end with a token that is no node of its own, provided that no two other nodes
follow each other without such a token. Comments do not count. -/
def spaced? : Bool → List Tree → Option Bool
  | ready, [] => some ready
  | ready, t :: ts =>
    if t.kind = .comment then spaced? ready ts
    else if t.isItem then if ready then spaced? false ts else none
    else spaced? (ready || t.start < t.stop) ts

/-- Whether something sets apart what comes behind the rule, where `ready` tells whether something
sets the rule apart from what comes before; `none` where two nodes may follow each other. -/
def spaces? : Rule ν → Bool → Option Bool
  | .token t, ready =>
    if t.kind.isNamed then if ready then some false else none else some true
  | .newline, _ => some true
  | .seq a b, ready => (a.spaces? ready).bind b.spaces?
  | .alt a b, ready =>
    (a.spaces? ready).bind fun r => (b.spaces? ready).map fun r' => r && r'
  | .many a, ready =>
    (a.spaces? ready).bind fun r => if ready && !r then none else some ready
  | .call _, ready | .node _ _, ready => if ready then some false else none
  | .group a, ready | .role _ a, ready =>
    if ready then (a.spaces? true).map fun _ => false else none
  | .wrap _ _ _, _ => some false
  | .done, ready | .sameLine, ready | .absent _, ready => some ready

/-- The nodes are set apart, and from what comes behind them too if `ready` says so. -/
def Spaced (ready : Bool) (ts : List Tree) : Prop :=
  ∃ r, spaced? true ts = some r ∧ (ready = true → r = true)

theorem spaced?_append (ready : Bool) (ts us : List Tree) :
    spaced? ready (ts ++ us) = (spaced? ready ts).bind fun r => spaced? r us := by
  induction ts generalizing ready with
  | nil => rfl
  | cons t ts ih =>
    rw [List.cons_append, spaced?, spaced?]
    split
    · exact ih _
    · split
      · split
        · exact ih _
        · rfl
      · exact ih _

theorem spaced?_mark (r : Role) (ready : Bool) (ts : List Tree) :
    spaced? ready (mark r ts) = spaced? ready ts := by
  induction ts generalizing ready with
  | nil => rfl
  | cons t ts ih =>
    have hsame : ∀ {u : Tree}, u = (if t.kind = .comment ∨ t.kind = .newline then t else
        { t with role := some r }) → u.kind = t.kind ∧ u.start = t.start ∧ u.stop = t.stop := by
      rintro u rfl
      split <;> exact ⟨rfl, rfl, rfl⟩
    change spaced? ready (_ :: mark r ts) = _
    obtain ⟨hkind, hstart, hstop⟩ := hsame rfl
    rw [spaced?, spaced?, Tree.isItem, Tree.isItem, hkind, hstart, hstop, ih, ih, ih]

theorem spaced?_comments (ready : Bool) {ts : List Tree} (h : ∀ t ∈ ts, t.kind = .comment) :
    spaced? ready ts = some ready := by
  induction ts with
  | nil => rfl
  | cons t ts ih =>
    rw [spaced?, if_pos (h t List.mem_cons_self)]
    exact ih fun u hu => h u (List.mem_cons_of_mem t hu)

/-- Comments and a single node are set apart. -/
theorem spaced?_build (k : Kind) (ts : List Tree) : (spaced? true (build k ts)).isSome = true := by
  have hcomments : ∀ t ∈ ts.takeWhile (·.kind = .comment), t.kind = .comment := fun t ht => by
    simpa using List.mem_takeWhile_imp (p := fun t : Tree => decide (t.kind = .comment)) ht
  unfold build
  dsimp only
  split
  · rw [spaced?_append, spaced?_comments true hcomments, Option.bind_some, spaced?]
    split
    · rfl
    · split <;> rfl
  · rw [spaced?_comments true hcomments]
    rfl

namespace Spaced

variable {ready : Bool} {ts us : List Tree}

theorem mono (h : Spaced ready ts) {ready' : Bool} (hready : ready' = true → ready = true) :
    Spaced ready' ts :=
  h.imp fun _ hr => ⟨hr.1, fun h => hr.2 (hready h)⟩

theorem of_isSome (h : (spaced? true ts).isSome = true) : Spaced false ts := by
  obtain ⟨r, hr⟩ := Option.isSome_iff_exists.mp h
  exact ⟨r, hr, fun h => absurd h Bool.false_ne_true⟩

/-- What is set apart may follow something that sets apart. -/
theorem append (h : Spaced true ts) (hus : Spaced ready us) : Spaced ready (ts ++ us) := by
  obtain ⟨r, hr, hready⟩ := h
  obtain ⟨r', hr', hready'⟩ := hus
  refine ⟨r', ?_, hready'⟩
  rw [spaced?_append, hr, Option.bind_some, hready rfl, hr']

/-- A token that is taken behind comments. -/
theorem take (h : Spaced ready ts) (gap : List Token) {tok : Token} (htok : tok.bytes ≠ [])
    {k : Kind} {r : Bool}
    (hr : (if k.isNamed then if ready then some false else none else some true) = some r) :
    Spaced r (ts ++ (commentTrees gap ++ [tok.tree k])) := by
  obtain ⟨q, hq, hready⟩ := h
  have hcomments : spaced? q (commentTrees gap) = some q := by
    refine spaced?_comments q fun c hc => ?_
    obtain ⟨g, -, rfl⟩ := List.mem_map.mp hc
    rfl
  rw [Spaced, spaced?_append, hq, Option.bind_some, spaced?_append, hcomments, Option.bind_some,
    spaced?]
  have hitem : (tok.tree k).isItem = (k.isNamed && decide (k ≠ .comment)) := rfl
  have hfilled : (tok.tree k).start < (tok.tree k).stop :=
    Nat.lt_add_of_pos_right (List.length_pos_iff.mpr htok)
  by_cases hcomment : k = .comment
  · subst hcomment
    cases ready with
    | true =>
      obtain rfl : false = r := Option.some.inj hr
      exact ⟨q, if_pos rfl, fun h => absurd h Bool.false_ne_true⟩
    | false => exact absurd hr (by simp [Kind.isNamed])
  · rw [if_neg (show (tok.tree k).kind ≠ _ from hcomment), hitem]
    cases hnamed : k.isNamed with
    | true =>
      rw [hnamed, if_pos rfl] at hr
      cases ready with
      | true =>
        cases hr
        simp [hready rfl, hcomment, spaced?]
      | false => cases hr
    | false => simp [hfilled, spaced?]

end Spaced

/-- A rule sets apart what it says it does, if the nonterminals do. -/
theorem run_spaced {call : ν → List Token → Option State}
    (hsuffix : ∀ n us s, call n us = some s → s.rest <:+ us) {ts : List Token}
    (hts : ∀ tok ∈ ts, tok.bytes ≠ [])
    (hcall : ∀ n us s, us <:+ ts → call n us = some s → Spaced false s.out)
    {a : Rule ν} {ready r : Bool} (ha : a.spaces? ready = some r) {s s' : State}
    (hs : s.rest <:+ ts) (hout : Spaced ready s.out) (h : run call a s = some s') :
    Spaced r s'.out := by
  induction a generalizing ready r s s' with
  | done =>
    cases ha
    cases h
    exact hout
  | token t =>
    obtain ⟨gap, tok, hrest, -, -, hout'⟩ := takeToken_split h
    rw [hout']
    exact hout.take gap (hts tok (hs.subset (by rw [hrest]; simp))) ha
  | newline =>
    obtain ⟨gap, tok, hrest, -, -, hout'⟩ := takeNewline_split h
    rw [hout']
    exact hout.take gap (hts tok (hs.subset (by rw [hrest]; simp))) ha
  | sameLine =>
    cases ha
    simp only [run, Option.ite_none_right_eq_some, Option.some.injEq] at h
    exact h.2 ▸ hout
  | absent a _ =>
    cases ha
    simp only [run, Option.ite_none_left_eq_some, Option.some.injEq] at h
    exact h.2 ▸ hout
  | seq a b iha ihb =>
    obtain ⟨q, hq, hb⟩ := Option.bind_eq_some_iff.mp ha
    obtain ⟨m, hm, h⟩ := Option.bind_eq_some_iff.mp h
    exact ihb hb ((run_suffix hsuffix hm).trans hs) (iha hq hs hout hm) h
  | alt a b iha ihb =>
    obtain ⟨q, hq, hb⟩ := Option.bind_eq_some_iff.mp ha
    obtain ⟨q', hq', rfl⟩ := Option.map_eq_some_iff.mp hb
    simp only [run] at h
    split at h
    · next m hm =>
      cases h
      exact (iha hq hs hout hm).mono fun h => (Bool.and_eq_true_iff.mp h).1
    · exact (ihb hq' hs hout h).mono fun h => (Bool.and_eq_true_iff.mp h).2
  | many a iha =>
    obtain ⟨q, hq, hready⟩ := Option.bind_eq_some_iff.mp ha
    simp only [Option.ite_none_left_eq_some, Option.some.injEq] at hready
    obtain ⟨hkeeps, rfl⟩ := hready
    cases h
    exact (iterate_keeps (P := fun m => m.rest <:+ ts ∧ Spaced ready m.out)
      (fun _ _ hm hstep => ⟨(run_suffix hsuffix hstep).trans hm.1,
        (iha hq hm.1 hm.2 hstep).mono fun h => by simpa [h] using hkeeps⟩) _ ⟨hs, hout⟩).2
  | call n =>
    obtain ⟨m, hm, rfl⟩ := Option.map_eq_some_iff.mp h
    obtain ⟨rfl, hr⟩ := Option.ite_none_right_eq_some.mp ha
    cases hr
    exact hout.append (hcall n _ m hs hm)
  | group a iha =>
    obtain ⟨m, hm, rfl⟩ := Option.map_eq_some_iff.mp h
    obtain ⟨rfl, hr⟩ := Option.ite_none_right_eq_some.mp ha
    obtain ⟨q, hq, rfl⟩ := Option.map_eq_some_iff.mp hr
    exact hout.append ((iha hq (s := ⟨[], s.rest⟩) hs ⟨true, rfl, id⟩ hm).mono fun h =>
      absurd h Bool.false_ne_true)
  | node k a _ =>
    obtain ⟨m, hm, rfl⟩ := Option.map_eq_some_iff.mp h
    obtain ⟨rfl, hr⟩ := Option.ite_none_right_eq_some.mp ha
    cases hr
    exact hout.append (.of_isSome (spaced?_build k m.out))
  | wrap k p a _ =>
    obtain ⟨m, hm, rfl⟩ := Option.map_eq_some_iff.mp h
    cases ha
    exact .of_isSome (spaced?_build k _)
  | role p a iha =>
    obtain ⟨m, hm, rfl⟩ := Option.map_eq_some_iff.mp h
    obtain ⟨rfl, hr⟩ := Option.ite_none_right_eq_some.mp ha
    obtain ⟨q, hq, rfl⟩ := Option.map_eq_some_iff.mp hr
    obtain ⟨q', hq', -⟩ := iha hq (s := ⟨[], s.rest⟩) hs ⟨true, rfl, id⟩ hm
    exact hout.append ⟨q', by rw [spaced?_mark, hq'], fun h => absurd h Bool.false_ne_true⟩

/-- In a row, nodes that are set apart do not touch. -/
theorem items_apart_of_spaced? {ts : List Tree} {lo hi : Nat} (hrow : Row lo ts hi)
    {ready r : Bool} (h : spaced? ready ts = some r) :
    (ts.filter (·.isItem)).Pairwise (fun a b => a.stop < b.start) ∧
      ∀ p ≤ lo, (ready = true → p < lo) → ∀ t ∈ ts.filter (·.isItem), p < t.start := by
  induction ts generalizing lo ready with
  | nil => exact ⟨.nil, fun _ _ _ t ht => by cases ht⟩
  | cons t ts ih =>
    obtain ⟨hstart, hspan, hrest⟩ := hrow
    rw [spaced?] at h
    split at h
    · next hcomment =>
      rw [List.filter_cons_of_neg (by simp [Tree.isItem, hcomment])]
      obtain ⟨hpairs, hafter⟩ := ih hrest h
      exact ⟨hpairs, fun p hp hready => hafter p (by omega) fun hr => by have := hready hr; omega⟩
    · split at h
      · next hitem =>
        obtain ⟨rfl, h⟩ := Option.ite_none_right_eq_some.mp h
        obtain ⟨hpairs, hafter⟩ := ih hrest h
        have htail := hafter t.stop le_rfl fun hr => by cases hr
        rw [List.filter_cons_of_pos hitem]
        refine ⟨hpairs.cons htail, fun p hp hready u hu => ?_⟩
        have := hready rfl
        rcases List.mem_cons.mp hu with rfl | hu
        · omega
        · have := htail u hu
          omega
      · next hitem =>
        rw [List.filter_cons_of_neg hitem]
        obtain ⟨hpairs, hafter⟩ := ih hrest h
        refine ⟨hpairs, fun p hp hready => hafter p (by omega) fun hr => ?_⟩
        rcases Bool.or_eq_true_iff.mp hr with hr | hr
        · have := hready hr
          omega
        · have := of_decide_eq_true hr
          omega

/-- The items of a node are those of what it is built of. -/
theorem items_of_mem_build {k : Kind} (hk : k ≠ .comment) {ts : List Tree} {t : Tree}
    (ht : t ∈ build k ts) (htk : t.kind = k) : t.items = ts.filter (·.isItem) := by
  have hcomments : ∀ t ∈ ts.takeWhile (·.kind = .comment), t.kind = .comment := fun t ht => by
    simpa using List.mem_takeWhile_imp (p := fun t : Tree => decide (t.kind = .comment)) ht
  have hfront : (ts.takeWhile (·.kind = .comment)).filter (·.isItem) = [] :=
    List.filter_eq_nil_iff.mpr fun c hc => by simp [Tree.isItem, hcomments c hc]
  unfold build at ht
  dsimp only at ht
  have hout : t ∉ ts.takeWhile (·.kind = .comment) := fun hmem => hk (htk ▸ hcomments t hmem)
  split at ht
  · obtain rfl := List.mem_singleton.mp ((List.mem_append.mp ht).resolve_left hout)
    conv_rhs => rw [
      ← List.takeWhile_append_dropWhile (p := fun t : Tree => decide (t.kind = .comment))
      (l := ts), List.filter_append, hfront, List.nil_append]
    rw [Tree.items, List.filter_filter]
    refine List.filter_congr fun c _ => ?_
    by_cases hc : c.kind = .newline <;> simp [Tree.isItem, Kind.isNamed, hc]
  · exact absurd ht hout

theorem sound_of_mem_bodies {spec : ν → Kind → Prop} {k : Kind} {a b : Rule ν} (ha : a.Sound spec)
    (hb : b ∈ a.bodies k) : b.Sound spec := by
  induction a with
  | seq a c iha ihc | alt a c iha ihc =>
    exact (List.mem_append.mp hb).elim (iha ha.1) (ihc ha.2)
  | many a iha | group a iha => exact iha ha hb
  | role r a iha => exact iha ha.1 hb
  | wrap k' r a iha => exact iha ha.1 hb
  | node k' a iha =>
    rw [bodies] at hb
    split at hb
    · rcases List.mem_cons.mp hb with rfl | hb
      · exact ha.1
      · exact iha ha.1 hb
    · exact iha ha.1 hb
  | done | token _ | newline | sameLine | absent _ _ | call _ => cases hb

end Rule

namespace Grammar

open Rule

/-- The nodes of which the items are set apart. -/
def lists : List Kind := [.block, .literalValue, .statementList]

theorem grammar_spaces (n : Nonterminal) : ((grammar n).spaces? true).isSome = true := by
  have hlisted : ∀ n ∈ nonterminals, ((grammar n).spaces? true).isSome = true := by
    decide +kernel
  obtain ⟨m, hm, hgrammar, _⟩ := exists_mem_nonterminals n
  exact hgrammar ▸ hlisted m hm

theorem derive_spaced {ts : List Token} (hts : ∀ tok ∈ ts, tok.bytes ≠ []) (fuel : Nat)
    (n : Nonterminal) (us : List Token) (s : State) (hus : us <:+ ts)
    (h : derive grammar fuel n us = some s) : Spaced false s.out := by
  induction fuel generalizing n us s with
  | zero => cases h
  | succ fuel ih =>
    obtain ⟨r, hr⟩ := Option.isSome_iff_exists.mp (grammar_spaces n)
    exact (run_spaced (derive_suffix fuel) hts (fun m ws s' hws hs' => ih m ws s' hws hs') hr
      (s := ⟨[], us⟩) hus ⟨true, rfl, id⟩ h).mono fun h => absurd h Bool.false_ne_true

theorem spaces_bodies {k : Kind} (hk : k ∈ lists) (n : Nonterminal) :
    (grammar n).encloses k = true ∧ ∀ b ∈ (grammar n).bodies k, (b.spaces? true).isSome = true := by
  have hall : ∀ k ∈ lists, ∀ n ∈ nonterminals, (grammar n).encloses k = true ∧
      ((grammar n).bodies k).all (fun b => (b.spaces? true).isSome) = true := by
    decide +kernel
  obtain ⟨m, hm, hgrammar, _⟩ := exists_mem_nonterminals n
  obtain ⟨hencloses, hbodies⟩ := hall k hk m hm
  rw [hgrammar] at hencloses hbodies
  exact ⟨hencloses, List.all_eq_true.mp hbodies⟩

end Grammar

open Rule Grammar

theorem Stream.of_suffix {src : Bytes} {lo : Nat} {ts us : List Token} (h : Stream src lo ts)
    (hus : us <:+ ts) : ∃ mid, Stream src mid us := by
  induction ts generalizing lo with
  | nil => exact List.suffix_nil.mp hus ▸ ⟨lo, h⟩
  | cons t ts ih =>
    rcases List.suffix_cons_iff.mp hus with rfl | hus
    · exact ⟨lo, h⟩
    · exact ih h.2.2 hus

/-- The items of a body or of a list of statements do not touch. -/
theorem items_apart {src : Bytes} {root t : Tree} (h : parse? src = some root) (ht : t ∈ root.walk)
    (hk : t.kind ∈ lists) : t.items.Pairwise fun a b => a.stop < b.start := by
  have hbuilt : ∀ k ∈ lists, IsBuilt k ∧ k ≠ .sourceFile := by
    intro k hk
    simp only [lists, List.mem_cons, List.not_mem_nil, or_false] at hk
    rcases hk with rfl | rfl | rfl <;> exact ⟨⟨by decide, by decide, rfl⟩, by decide⟩
  obtain ⟨hkind, hfile⟩ := hbuilt t.kind hk
  have hfull : ∀ tok ∈ Token.scan src, tok.bytes ≠ [] := fun tok htok hnil => by
    have := (Token.scan_whole htok).start_lt
    rw [Token.stop, hnil] at this
    exact Nat.lt_irrefl _ this
  refine parse?_every (P := fun t => t.items.Pairwise fun a b => a.stop < b.start) hkind hfile h
    (fun s hs => ?_) ht rfl
  refine derive_every_bodies hkind (fun _ _ ht => ht) (fun n => (spaces_bodies hk n).1)
    (fun tok htok => Token.scan_whole htok) (fun n b hb fuel us m hus hm u hu huk => ?_)
    List.suffix_rfl hs
  obtain ⟨mid, hstream⟩ := (Token.scan_stream src).of_suffix hus
  obtain ⟨hi, hrow, -⟩ := run_good (derive_yields grammar_yields fuel)
    (derive_lists grammar_lists fuel)
    (derive_good grammar_yields grammar_lists grammar_sound fuel)
    (sound_of_mem_bodies (grammar_sound n) hb) (State.Good.start hstream) hm
  obtain ⟨r, hr⟩ := Option.isSome_iff_exists.mp ((spaces_bodies hk n).2 b hb)
  obtain ⟨q, hq, -⟩ := run_spaced (derive_suffix fuel) hfull (derive_spaced hfull fuel) hr
    (s := ⟨[], us⟩) hus ⟨true, rfl, id⟩ hm
  rw [items_of_mem_build hkind.comment hu huk]
  exact (items_apart_of_spaced? hrow hq).1

/-- Two statements of a body do not touch. -/
theorem statements_apart {src : Bytes} {root body : Tree} (h : parse? src = some root)
    (hbody : body ∈ root.walk) (hk : body.kind = .block ∨ body.kind = .literalValue) :
    body.statements.Pairwise fun a b => a.stop < b.start := by
  have hown := items_apart h hbody (by rcases hk with hk | hk <;> rw [hk] <;> decide)
  rw [Tree.items, List.pairwise_filter] at hown
  have hlaid := parse?_laid h
  have hspan : ∀ c ∈ body.children, ∀ s ∈ c.asStatements,
      c.isItem = true ∧ c.start ≤ s.start ∧ s.stop ≤ c.stop := by
    intro c hc s hs
    unfold Tree.asStatements at hs
    split at hs
    · next hlist =>
      have hbounds := (hlaid.of_mem_walk (Tree.mem_walk_of_mem_children hbody hc)).row.bounds_of_mem
        (List.mem_filter.mp hs).1
      exact ⟨by rw [Tree.isItem, hlist]; rfl, hbounds.1, hbounds.2.2⟩
    · split at hs
      · next hitem =>
        rw [List.mem_singleton.mp hs]
        exact ⟨hitem, le_rfl, le_rfl⟩
      · cases hs
  rw [Tree.statements_eq, List.pairwise_flatMap]
  refine ⟨fun c hc => ?_, (List.Pairwise.and_mem.mp hown).imp fun {a b} hab x hx y hy => ?_⟩
  · unfold Tree.asStatements
    split
    · next hlist =>
      exact items_apart h (Tree.mem_walk_of_mem_children hbody hc) (by rw [hlist]; decide)
    · split
      · exact List.pairwise_singleton _ _
      · exact .nil
  · obtain ⟨ha, hb, hab⟩ := hab
    obtain ⟨haitem, _, hxa⟩ := hspan a ha x hx
    obtain ⟨hbitem, hby, _⟩ := hspan b hb y hy
    have := hab haitem hbitem
    omega

end CtxThread.Code
