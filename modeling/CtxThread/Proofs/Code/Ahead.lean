import CtxThread.Proofs.Code.Reread
import CtxThread.Proofs.Code.Spends

/-!
# What stands in front of a rule

Comments and line ends in front of the tokens do not matter to a rule that passes over line ends
before its first token: the comments stay in front of what it builds. And which token comes first
may decide that a rule does not fit.

## Main definitions

- `Rule.advances`: the rule takes a token wherever it fits
- `Rule.passes`: before its first token the rule passes over line ends
- `Rule.Response`, `Rule.response`: what a rule does in front of a given token

## Main statements

- `Rule.run_comments`: comments stay in front of what a rule builds
- `Rule.run_gap`: comments and line ends in front of the tokens
- `Rule.run_response`: a rule that refuses a token does not fit in front of it
-/

namespace CtxThread.Code

namespace Rule

variable {ν : Type}

/-! ## Comments in front -/

theorem kind_of_mem_commentTrees {gap : List Token} {c : Tree} (hc : c ∈ commentTrees gap) :
    c.kind = .comment := by
  obtain ⟨g, -, rfl⟩ := List.mem_map.mp hc
  rfl

theorem mark_comments (r : Role) {cs : List Tree} (hcs : ∀ c ∈ cs, c.kind = .comment)
    (ts : List Tree) : mark r (cs ++ ts) = cs ++ mark r ts := by
  rw [mark, List.map_append, mark, List.append_left_inj]
  exact (List.map_congr_left fun c hc => if_pos (.inl (hcs c hc))).trans (List.map_id cs)

/-- Comments stay in front of what a rule builds. -/
theorem run_comments (call : ν → List Token → Option State) {cs : List Tree}
    (hcs : ∀ c ∈ cs, c.kind = .comment) (a : Rule ν) (s : State) :
    run call a (s.after cs) = (run call a s).map (State.after cs) := by
  induction a generalizing s with
  | done => rfl
  | token t => exact takeToken_append cs t s
  | newline => exact takeNewline_append cs s
  | sameLine =>
    simp only [run, onSameLine_append]
    split <;> rfl
  | absent a iha =>
    simp only [run, iha, Option.isSome_map]
    split <;> rfl
  | seq a b iha ihb =>
    simp only [run, iha]
    cases run call a s with
    | none => rfl
    | some m => exact ihb m
  | alt a b iha ihb =>
    simp only [run, iha, ihb]
    cases run call a s with
    | none => rfl
    | some m => rfl
  | many a iha =>
    simp only [run, Option.map_some, ← iterate_append iha]
    rfl
  | wrap k r a _ =>
    simp only [run, State.after, Option.map_map]
    refine congrArg (Option.map · _) (funext fun m => ?_)
    cases r with
    | none => simp [State.after, build_comments k hcs]
    | some r => simp [State.after, mark_comments r hcs, build_comments k hcs]
  | call n | group a _ | node k a _ | role r a _ =>
    simp only [run, State.after, Option.map_map]
    refine congrArg (Option.map · _) (funext fun m => ?_)
    simp [State.after]

/-! ## Comments and line ends in front -/

/-- The rule takes a token wherever it fits, if the nonterminals of the class `n` do. -/
def advances (n : ν → Bool) : Rule ν → Bool
  | .token _ | .newline => true
  | .seq a b => a.advances n || b.advances n
  | .alt a b => a.advances n && b.advances n
  | .group a | .node _ a | .wrap _ _ a | .role _ a => a.advances n
  | .call m => n m
  | .done | .sameLine | .absent _ | .many _ => false

/-- Before its first token the rule passes over line ends, if the nonterminals of the class `n` do
and take a token. -/
def passes (n : ν → Bool) : Rule ν → Bool
  | .done | .token _ => true
  | .newline | .sameLine => false
  | .seq a b => a.passes n && (a.advances n || b.passes n)
  | .alt a b => a.passes n && b.passes n
  | .absent a | .many a | .group a | .node _ a | .wrap _ _ a | .role _ a => a.passes n
  | .call m => n m

section Gap

variable {n : ν → Bool} {call : ν → List Token → Option State}
  (hsuffix : ∀ m us s, call m us = some s → s.rest <:+ us)
  (hshort : ∀ m us s, n m = true → call m us = some s → s.rest.length < us.length)

include hsuffix hshort

/-- A rule that advances leaves fewer tokens. -/
theorem run_advances {a : Rule ν} (ha : a.advances n = true) {s s' : State}
    (h : run call a s = some s') : s'.rest.length < s.rest.length := by
  induction a generalizing s s' with
  | token t =>
    obtain ⟨tok, hrest⟩ := takeToken_suffix h
    exact hrest.length_le
  | newline =>
    obtain ⟨tok, hrest⟩ := takeNewline_suffix h
    exact hrest.length_le
  | seq a b iha ihb =>
    obtain ⟨m, hm, hb⟩ := Option.bind_eq_some_iff.mp h
    rcases Bool.or_eq_true_iff.mp ha with ha | hb'
    · exact (run_suffix hsuffix hb).length_le.trans_lt (iha ha hm)
    · exact (ihb hb' hb).trans_le (run_suffix hsuffix hm).length_le
  | alt a b iha ihb =>
    obtain ⟨ha, hb⟩ := Bool.and_eq_true_iff.mp ha
    simp only [run] at h
    split at h
    · next m hm => cases h; exact iha ha hm
    · exact ihb hb h
  | call m =>
    obtain ⟨r, hr, rfl⟩ := Option.map_eq_some_iff.mp h
    exact hshort m s.rest r ha hr
  | group a iha | node k a iha | wrap k r a iha | role r a iha =>
    obtain ⟨m, hm, rfl⟩ := Option.map_eq_some_iff.mp h
    have hshorter := iha ha hm
    exact hshorter
  | _ => cases ha

omit hsuffix hshort

/-- Two states that differ by comments and line ends: either they still stand in front of the tokens
`ts`, or a token has been taken and the comments stand in front of the nodes. -/
inductive Ahead (gap ts : List Token) : State → State → Prop
  | still : Ahead gap ts ⟨[], gap ++ ts⟩ ⟨[], ts⟩
  | moved (m : State) (h : m.rest.length < ts.length) :
    Ahead gap ts (m.after (commentTrees gap)) m

/-- A repeated step passes over line ends like the step. -/
theorem iterate_ahead {gap ts : List Token} {step : State → Option State}
    (hrest : ∀ s s', step s = some s' → s'.rest <:+ s.rest)
    (hcomments : ∀ s : State,
      step (s.after (commentTrees gap)) = (step s).map (State.after (commentTrees gap)))
    (h : Option.Rel (Ahead gap ts) (step ⟨[], gap ++ ts⟩) (step ⟨[], ts⟩)) :
    Ahead gap ts (iterate step (gap ++ ts).length ⟨[], gap ++ ts⟩)
      (iterate step ts.length ⟨[], ts⟩) := by
  have hfuel : ∀ {us : List Token}, us.length ≤ (gap ++ ts).length →
      iterate step us.length ⟨[], us⟩ = iterate step ((gap ++ ts).length + 1) ⟨[], us⟩ := by
    intro us hle
    exact iterate_stable (s := ⟨[], us⟩) le_rfl (hle.trans (Nat.le_succ _))
  have hle : ts.length ≤ (gap ++ ts).length := by
    rw [List.length_append]
    exact Nat.le_add_left _ _
  rw [hfuel le_rfl, hfuel hle, iterate, iterate]
  cases hleft : step ⟨[], gap ++ ts⟩ with
  | none =>
    rw [hleft] at h
    cases hright : step ⟨[], ts⟩ with
    | none => exact .still
    | some m => rw [hright] at h; cases h
  | some l =>
    rw [hleft] at h
    cases hright : step ⟨[], ts⟩ with
    | none => rw [hright] at h; cases h
    | some r =>
      rw [hright] at h
      cases h with
      | some h =>
        cases h with
        | still =>
          simp only [Nat.lt_irrefl, if_false]
          exact .still
        | moved _ hlt =>
          have hlt' : (r.after (commentTrees gap)).rest.length < (gap ++ ts).length :=
            hlt.trans_le hle
          simp only [hlt, hlt', if_true]
          rw [iterate_append hcomments]
          refine .moved _ (lt_of_le_of_lt (List.IsSuffix.length_le ?_) hlt)
          exact iterate_keeps (P := fun m => m.rest <:+ r.rest)
            (fun _ _ hm hstep => (hrest _ _ hstep).trans hm) _ List.suffix_rfl

theorem rel_map_ahead {gap ts : List Token} {l r : Option State} {f : State → State}
    (h : Option.Rel (Ahead gap ts) l r) (hnil : ∀ us, f ⟨[], us⟩ = ⟨[], us⟩)
    (hrest : ∀ m, (f m).rest = m.rest)
    (hcomments : ∀ m : State,
      f (m.after (commentTrees gap)) = (f m).after (commentTrees gap)) :
    Option.Rel (Ahead gap ts) (l.map f) (r.map f) := by
  cases h with
  | none => exact .none
  | some h =>
    refine .some ?_
    cases h with
    | still =>
      rw [hnil, hnil]
      exact .still
    | moved m hlt =>
      rw [hcomments]
      exact .moved _ (by rwa [hrest])

theorem rel_bind_ahead {gap ts : List Token} {l r : Option State} {f : State → Option State}
    (h : Option.Rel (Ahead gap ts) l r)
    (hstill : r = some ⟨[], ts⟩ → Option.Rel (Ahead gap ts) (f ⟨[], gap ++ ts⟩) (f ⟨[], ts⟩))
    (hrest : ∀ m m', f m = some m' → m'.rest <:+ m.rest)
    (hcomments : ∀ m : State,
      f (m.after (commentTrees gap)) = (f m).map (State.after (commentTrees gap))) :
    Option.Rel (Ahead gap ts) (l.bind f) (r.bind f) := by
  cases h with
  | none => exact .none
  | @some _ m h =>
    cases h with
    | still => exact hstill rfl
    | moved _ hlt =>
      rw [Option.bind_some, Option.bind_some, hcomments]
      cases hm : f m with
      | none => exact .none
      | some m' => exact .some (.moved _ ((hrest m m' hm).length_le.trans_lt hlt))

include hsuffix hshort

/-- Comments and line ends in front of the tokens do not matter to a rule that passes over them. -/
theorem run_ahead {gap ts : List Token} (hgap : ∀ g ∈ gap, g.lexeme.isGap = true)
    (hcall : ∀ m us, n m = true →
      call m (gap ++ us) = (call m us).map (State.after (commentTrees gap)))
    {a : Rule ν} (ha : a.passes n = true) :
    Option.Rel (Ahead gap ts) (run call a ⟨[], gap ++ ts⟩) (run call a ⟨[], ts⟩) := by
  have hcs : ∀ c ∈ commentTrees gap, c.kind = .comment := fun c => kind_of_mem_commentTrees
  have hcomments := run_comments call hcs
  induction a with
  | done => exact .some .still
  | token t =>
    have htake : takeToken t ⟨[], gap ++ ts⟩ =
        (takeToken t ⟨[], ts⟩).map (State.after (commentTrees gap)) := by
      rw [← takeToken_append, takeToken, takeToken, State.after, skipBlanks_eq, skipBlanks_eq,
        List.takeWhile_append_of_pos hgap, List.dropWhile_append_of_pos hgap, commentTrees,
        List.filter_append, List.map_append]
      simp [commentTrees]
    simp only [run, htake]
    cases hm : takeToken t ⟨[], ts⟩ with
    | none => exact .none
    | some m =>
      obtain ⟨tok, hrest⟩ := takeToken_suffix hm
      exact .some (.moved m hrest.length_le)
  | newline | sameLine => cases ha
  | absent a iha =>
    have hrel := iha ha
    simp only [run]
    cases hl : run call a ⟨[], gap ++ ts⟩ <;> cases hr : run call a ⟨[], ts⟩
    all_goals rw [hl, hr] at hrel
    · exact .some .still
    · cases hrel
    · cases hrel
    · exact .none
  | seq a b iha ihb =>
    obtain ⟨ha, hb⟩ := Bool.and_eq_true_iff.mp ha
    refine rel_bind_ahead (iha ha) (fun hr => ?_) (fun _ _ h => run_suffix hsuffix h) (hcomments b)
    rcases Bool.or_eq_true_iff.mp hb with hadvances | hb
    · exact absurd (run_advances hsuffix hshort hadvances hr) (lt_irrefl _)
    · exact ihb hb
  | alt a b iha ihb =>
    obtain ⟨ha, hb⟩ := Bool.and_eq_true_iff.mp ha
    have hrel := iha ha
    simp only [run]
    cases hl : run call a ⟨[], gap ++ ts⟩ <;> cases hr : run call a ⟨[], ts⟩
    all_goals rw [hl, hr] at hrel
    · exact ihb hb
    · cases hrel
    · cases hrel
    · exact hrel
  | many a iha =>
    exact .some (iterate_ahead (fun _ _ h => run_suffix hsuffix h) (hcomments a) (iha ha))
  | call m =>
    simp only [run, hcall m ts ha, List.nil_append]
    cases hm : call m ts with
    | none => exact .none
    | some r => exact .some (.moved _ (hshort m ts r ha hm))
  | group a iha => exact rel_map_ahead (iha ha) (fun _ => rfl) (fun _ => rfl) fun _ => rfl
  | node k a iha =>
    refine rel_map_ahead (iha ha) (fun _ => rfl) (fun _ => rfl) fun m => ?_
    simp [State.after, build_comments k hcs]
  | wrap k r a iha =>
    refine rel_map_ahead (iha ha) (fun us => ?_) (fun _ => rfl) fun m => ?_
    · cases r <;> rfl
    · cases r <;> simp [State.after, mark, build_comments k hcs]
  | role r a iha =>
    refine rel_map_ahead (iha ha) (fun _ => rfl) (fun _ => rfl) fun m => ?_
    simp [State.after, mark_comments r hcs]

/-- They do not matter to a rule that takes a token: the comments come out in front. -/
theorem run_gap {gap : List Token} (hgap : ∀ g ∈ gap, g.lexeme.isGap = true)
    (hcall : ∀ m us, n m = true →
      call m (gap ++ us) = (call m us).map (State.after (commentTrees gap)))
    {a : Rule ν} (ha : a.passes n = true) (hadvances : a.advances n = true) (ts : List Token) :
    run call a ⟨[], gap ++ ts⟩ =
      (run call a ⟨[], ts⟩).map (State.after (commentTrees gap)) := by
  have hrel : Option.Rel (Ahead gap ts) (run call a ⟨[], gap ++ ts⟩) (run call a ⟨[], ts⟩) :=
    run_ahead hsuffix hshort hgap hcall ha
  cases hr : run call a ⟨[], ts⟩ with
  | none =>
    cases hl : run call a ⟨[], gap ++ ts⟩ with
    | none => rfl
    | some l => rw [hl, hr] at hrel; cases hrel
  | some r =>
    cases hl : run call a ⟨[], gap ++ ts⟩ with
    | none => rw [hl, hr] at hrel; cases hrel
    | some l =>
      rw [hl, hr] at hrel
      cases hrel with
      | some h =>
        cases h with
        | still => exact absurd (run_advances hsuffix hshort hadvances hr) (lt_irrefl _)
        | moved => rfl

end Gap

/-! ## The token in front -/

/-- What a rule does in front of a token: it does not fit, it takes nothing, or it may take some. -/
inductive Response where
  | refuses | rests | mayTake
  deriving DecidableEq

/-- What one of two rules does. -/
def Response.either : Response → Response → Response
  | .refuses, r => r
  | r, .refuses => r
  | .rests, .rests => .rests
  | _, _ => .mayTake

/-- What the rule does in front of a token that is neither a comment nor a line end and has the
lexeme `l`, if the nonterminals of the class `n` do not fit there. -/
def response (n : ν → Bool) (l : Lexeme) : Rule ν → Response
  | .done | .sameLine | .absent _ => .rests
  | .token t => if (t.accept? l).isSome then .mayTake else .refuses
  | .newline => .refuses
  | .seq a b =>
    match a.response n l with
    | .refuses => .refuses
    | .rests => b.response n l
    | .mayTake => .mayTake
  | .alt a b => (a.response n l).either (b.response n l)
  | .many a => Response.either .rests (a.response n l)
  | .call m => if n m then .refuses else .mayTake
  | .group a | .node _ a | .wrap _ _ a | .role _ a => a.response n l

/-- What the response says of a run. -/
def Response.Holds (s : State) (r : Option State) : Response → Prop
  | .refuses => r = none
  | .rests => ∀ s', r = some s' → s'.rest = s.rest
  | .mayTake => True

namespace Response

variable {s : State} {r r' : Option State} {x y : Response}

theorem Holds.of_none (hr : r = none) (x : Response) : x.Holds s r := by
  cases x with
  | refuses => exact hr
  | rests => exact fun s' hs' => by rw [hr] at hs'; cases hs'
  | mayTake => trivial

theorem Holds.either (hx : x.Holds s r) (hy : y.Holds s r') :
    (x.either y).Holds s (r.or r') := by
  cases r with
  | none => cases x <;> cases y <;> first | exact hy | exact Holds.of_none hy _ | trivial
  | some m => cases x <;> cases y <;> first | exact hx | cases hx | trivial

end Response

/-- What a rule does in front of a token. -/
theorem run_response {n : ν → Bool} {call : ν → List Token → Option State} {tok : Token}
    {ts : List Token} (hgap : tok.lexeme.isGap = false)
    (hcall : ∀ m, n m = true → call m (tok :: ts) = none) (a : Rule ν) {s : State}
    (hs : s.rest = tok :: ts) : (a.response n tok.lexeme).Holds s (run call a s) := by
  have hcomment : tok.lexeme ≠ .comment := by rintro hl; rw [hl] at hgap; cases hgap
  have hnewline : tok.lexeme ≠ .newline := by rintro hl; rw [hl] at hgap; cases hgap
  induction a generalizing s with
  | done =>
    rintro s' hs'
    cases hs'
    rfl
  | sameLine | absent a _ =>
    rintro s' hs'
    simp only [run] at hs'
    split at hs' <;> cases hs'
    rfl
  | token t =>
    rw [response]
    split
    · trivial
    · next hnone =>
      refine takeToken_eq_none (l := tok.lexeme) ?_ (by simpa using hnone)
      rw [hs, nextLexeme?_cons hcomment hnewline]
  | newline =>
    change takeNewline s = none
    simp only [takeNewline, hs, skipComments, if_neg hcomment, if_neg hnewline]
  | seq a b iha ihb =>
    have hfirst := iha hs
    rw [response]
    cases hresponse : a.response n tok.lexeme with
    | mayTake => trivial
    | refuses =>
      rw [hresponse] at hfirst
      rw [run, hfirst]
      rfl
    | rests =>
      rw [hresponse] at hfirst
      rw [run]
      cases hm : run call a s with
      | none => exact Response.Holds.of_none rfl _
      | some m =>
        have hrest := hfirst m hm
        have hsecond := ihb (hrest.trans hs)
        dsimp only [Option.bind_some]
        generalize b.response n tok.lexeme = x at hsecond
        cases x with
        | refuses => exact hsecond
        | rests => exact fun s' hs' => (hsecond s' hs').trans hrest
        | mayTake => trivial
  | alt a b iha ihb =>
    have halt : run call (.alt a b) s = (run call a s).or (run call b s) := by
      rw [run]
      cases run call a s <;> rfl
    exact halt ▸ (iha hs).either (ihb hs)
  | many a iha =>
    have hfirst := iha hs
    have hstill : (∀ s', run call a s = some s' → s'.rest = s.rest) →
        ∀ s', some (iterate (run call a) s.rest.length s) = some s' → s'.rest = s.rest := by
      rintro hrest _ ⟨⟩
      rw [hs, List.length_cons, iterate]
      cases hm : run call a s with
      | none => exact hs
      | some m => simp [hrest m hm, hs]
    rw [response]
    generalize a.response n tok.lexeme = x at hfirst
    cases x with
    | refuses =>
      refine hstill fun s' hs' => ?_
      rw [show run call a s = none from hfirst] at hs'
      cases hs'
    | rests => exact hstill hfirst
    | mayTake => trivial
  | call m =>
    rw [response]
    split
    · next hn =>
      change (call m s.rest).map _ = none
      rw [hs, hcall m hn]
      rfl
    · trivial
  | group a iha | node k a iha | wrap k r a iha | role r a iha =>
    have hinner := iha (s := ⟨[], s.rest⟩) hs
    rw [response]
    generalize a.response n tok.lexeme = x at hinner
    cases x with
    | refuses =>
      have hnone : run call a ⟨[], s.rest⟩ = none := hinner
      simp only [run, hnone]
      rfl
    | rests =>
      intro s' hs'
      obtain ⟨m, hm, rfl⟩ := Option.map_eq_some_iff.mp hs'
      exact hinner m hm
    | mayTake => trivial

/-- Where the first of several rules do not fit, the others are left. -/
theorem run_choice_append {call : ν → List Token → Option State} {as bs : List (Rule ν)} {s : State}
    (h : ∀ a ∈ as, run call a s = none) (hbs : bs ≠ []) :
    run call (choice (as ++ bs)) s = run call (choice bs) s := by
  induction as with
  | nil => rfl
  | cons a as ih =>
    obtain ⟨ha, has⟩ := List.forall_mem_cons.mp h
    obtain ⟨c, cs, hcs⟩ := List.exists_cons_of_ne_nil (List.append_ne_nil_of_right_ne_nil as hbs)
    rw [← ih has, List.cons_append, hcs, choice, run, ha]
    exact List.cons_ne_nil c cs

end Rule

end CtxThread.Code
