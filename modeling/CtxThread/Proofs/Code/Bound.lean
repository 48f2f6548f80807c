import CtxThread.Proofs.Code.Nesting

/-!
# The bound on the nesting is no limit

Nonterminals are run within a bound on how deep they may be nested. Before a rule has taken a token
it comes to nonterminals of lower rank only, so there is a depth that is never reached, and all
bounds beyond it give the same.

## Main definitions

- `Rule.consumes`: a rule that takes a token wherever it fits
- `Rule.descends`: a rule that comes to nonterminals of lower rank only before its first token
- `Grammar.rank`: the ranks of the nonterminals

## Main statements

- `Rule.run_congr`: running a rule depends on the nonterminals it can come to only
- `Grammar.derive_eq_derive`, `Grammar.run_derive_eq`: all bounds from the one that parsing takes
  give the same
-/

namespace CtxThread.Code

namespace Rule

variable {ν : Type}

/-- The rule takes a token wherever it fits. -/
def consumes : Rule ν → Bool
  | .token _ | .newline => true
  | .seq a b => a.consumes || b.consumes
  | .alt a b => a.consumes && b.consumes
  | .group a | .node _ a | .wrap _ _ a | .role _ a => a.consumes
  | .done | .sameLine | .absent _ | .many _ | .call _ => false

/-- Before its first token the rule comes only to nonterminals of a rank below `r`. -/
def descends (rank : ν → Nat) (r : Nat) : Rule ν → Bool
  | .call n => rank n < r
  | .seq a b => a.descends rank r && (a.consumes || b.descends rank r)
  | .alt a b => a.descends rank r && b.descends rank r
  | .absent a | .many a | .group a | .node _ a | .wrap _ _ a | .role _ a => a.descends rank r
  | .done | .token _ | .newline | .sameLine => true

/-! ## The tokens left -/

theorem skipComments_suffix (out : List Tree) (ts : List Token) :
    (skipComments out ts).rest <:+ ts := by
  induction ts generalizing out with
  | nil => exact List.suffix_rfl
  | cons t ts ih =>
    rw [skipComments]
    split
    · exact (ih _).trans (List.suffix_cons t ts)
    · exact List.suffix_rfl

theorem skipBlanks_suffix (out : List Tree) (ts : List Token) :
    (skipBlanks out ts).rest <:+ ts := by
  induction ts generalizing out with
  | nil => exact List.suffix_rfl
  | cons t ts ih =>
    rw [skipBlanks]
    split
    · exact (ih _).trans (List.suffix_cons t ts)
    · split
      · exact (ih _).trans (List.suffix_cons t ts)
      · exact List.suffix_rfl

theorem takeToken_suffix {t : Terminal} {s s' : State} (h : takeToken t s = some s') :
    ∃ tok, tok :: s'.rest <:+ s.rest := by
  have hsuffix := skipBlanks_suffix s.out s.rest
  unfold takeToken at h
  dsimp only at h
  split at h
  · cases h
  · next tok rest hrest =>
    obtain ⟨k, _, rfl⟩ := Option.map_eq_some_iff.mp h
    exact ⟨tok, hrest ▸ hsuffix⟩

theorem takeNewline_suffix {s s' : State} (h : takeNewline s = some s') :
    ∃ tok, tok :: s'.rest <:+ s.rest := by
  have hsuffix := skipComments_suffix s.out s.rest
  unfold takeNewline at h
  dsimp only at h
  split at h
  · cases h
  · next tok rest hrest =>
    split at h
    · cases h
      exact ⟨tok, hrest ▸ hsuffix⟩
    · cases h

section Calls

variable {call : ν → List Token → Option State}

/-- Running a rule takes tokens off the front. -/
theorem run_suffix (hcall : ∀ n ts s, call n ts = some s → s.rest <:+ ts) {a : Rule ν}
    {s s' : State} (h : run call a s = some s') : s'.rest <:+ s.rest := by
  induction a generalizing s s' with
  | done => cases h; exact List.suffix_rfl
  | token t =>
    obtain ⟨tok, hsuffix⟩ := takeToken_suffix h
    exact (List.suffix_cons tok _).trans hsuffix
  | newline =>
    obtain ⟨tok, hsuffix⟩ := takeNewline_suffix h
    exact (List.suffix_cons tok _).trans hsuffix
  | sameLine =>
    simp only [run, Option.ite_none_right_eq_some, Option.some.injEq] at h
    exact h.2 ▸ List.suffix_rfl
  | absent a _ =>
    simp only [run, Option.ite_none_left_eq_some, Option.some.injEq] at h
    exact h.2 ▸ List.suffix_rfl
  | seq a b iha ihb =>
    obtain ⟨m, hm, hb⟩ := Option.bind_eq_some_iff.mp h
    exact (ihb hb).trans (iha hm)
  | alt a b iha ihb =>
    simp only [run] at h
    split at h
    · next m hm => cases h; exact iha hm
    · exact ihb h
  | many a iha =>
    cases h
    exact iterate_keeps (P := fun m => m.rest <:+ s.rest)
      (fun _ _ hm hstep => (iha hstep).trans hm) _ List.suffix_rfl
  | call n =>
    obtain ⟨m, hm, rfl⟩ := Option.map_eq_some_iff.mp h
    exact hcall n _ m hm
  | group a iha | node k a iha | wrap k r a iha | role r a iha =>
    obtain ⟨m, hm, rfl⟩ := Option.map_eq_some_iff.mp h
    have hsuffix := iha hm
    exact hsuffix

/-- A rule that consumes leaves fewer tokens. -/
theorem run_shorter (hcall : ∀ n ts s, call n ts = some s → s.rest <:+ ts) {a : Rule ν}
    (ha : a.consumes = true) {s s' : State} (h : run call a s = some s') :
    s'.rest.length < s.rest.length := by
  induction a generalizing s s' with
  | token t =>
    obtain ⟨tok, hsuffix⟩ := takeToken_suffix h
    exact hsuffix.length_le
  | newline =>
    obtain ⟨tok, hsuffix⟩ := takeNewline_suffix h
    exact hsuffix.length_le
  | seq a b iha ihb =>
    obtain ⟨m, hm, hb⟩ := Option.bind_eq_some_iff.mp h
    rcases Bool.or_eq_true_iff.mp ha with ha | hb'
    · exact (run_suffix hcall hb).length_le.trans_lt (iha ha hm)
    · exact (ihb hb' hb).trans_le (run_suffix hcall hm).length_le
  | alt a b iha ihb =>
    simp only [consumes, Bool.and_eq_true] at ha
    simp only [run] at h
    split at h
    · next m hm => cases h; exact iha ha.1 hm
    · exact ihb ha.2 h
  | group a iha | node k a iha | wrap k r a iha | role r a iha =>
    obtain ⟨m, hm, rfl⟩ := Option.map_eq_some_iff.mp h
    have hshorter := iha ha hm
    exact hshorter
  | _ => cases ha

end Calls

/-! ## The nonterminals in reach -/

/-- Repeating a step depends only on what it does on the tokens that are left. -/
theorem iterate_congr {step step' : State → Option State} {ts : List Token}
    (hsuffix : ∀ s s', step s = some s' → s'.rest <:+ s.rest)
    (hstep : ∀ s, s.rest <:+ ts → step s = step' s) (fuel : Nat) {s : State}
    (hs : s.rest <:+ ts) : iterate step fuel s = iterate step' fuel s := by
  induction fuel generalizing s with
  | zero => rfl
  | succ fuel ih =>
    rw [iterate, iterate, ← hstep s hs]
    cases h : step s with
    | none => rfl
    | some s' =>
      dsimp only
      rw [ih ((hsuffix s s' h).trans hs)]

/-- Running a rule depends only on what the nonterminals do that it can come to: any of them behind
its first token, and before that those of lower rank. -/
theorem run_congr {call call' : ν → List Token → Option State} {rank : ν → Nat} {r : Nat}
    {ts : List Token} (hsuffix : ∀ n us s, call n us = some s → s.rest <:+ us)
    (hcall : ∀ n us, us <:+ ts → us.length < ts.length ∨ rank n < r → call n us = call' n us)
    {a : Rule ν} {s : State} (hs : s.rest <:+ ts)
    (ha : s.rest.length < ts.length ∨ a.descends rank r = true) :
    run call a s = run call' a s := by
  induction a generalizing s with
  | done | token t | newline | sameLine => rfl
  | absent a iha => simp only [run, iha hs ha]
  | seq a b iha ihb =>
    have hfirst : run call a s = run call' a s := by
      refine iha hs (ha.imp_right fun h => ?_)
      exact (Bool.and_eq_true_iff.mp h).1
    rw [run, run, ← hfirst]
    cases hm : run call a s with
    | none => rfl
    | some m =>
      have hms := run_suffix hsuffix hm
      refine ihb (hms.trans hs) ?_
      rcases ha with hlt | hdescends
      · exact .inl (hms.length_le.trans_lt hlt)
      · rcases Bool.or_eq_true_iff.mp (Bool.and_eq_true_iff.mp hdescends).2 with hconsumes | hb
        · exact .inl ((run_shorter hsuffix hconsumes hm).trans_le hs.length_le)
        · exact .inr hb
  | alt a b iha ihb =>
    have ha' := ha.imp_right fun h => Bool.and_eq_true_iff.mp h
    simp only [run, iha hs (ha'.imp_right And.left), ihb hs (ha'.imp_right And.right)]
  | many a iha =>
    refine congrArg some (iterate_congr (fun _ _ h => run_suffix hsuffix h) (fun m hm => ?_) _
      List.suffix_rfl)
    exact iha (hm.trans hs) (ha.imp_left hm.length_le.trans_lt)
  | call n =>
    have hn : call n s.rest = call' n s.rest := by
      refine hcall n s.rest hs (ha.imp_right fun h => ?_)
      simpa [descends] using h
    simp only [run, hn]
  | group a iha | node k a iha | wrap k r a iha | role r a iha =>
    simp only [run, iha (s := ⟨[], s.rest⟩) hs ha]

/-- To nonterminals of one rank only, every rule descends. -/
theorem descends_const (a : Rule ν) : a.descends (fun _ => 0) 1 = true := by
  induction a with
  | seq a b iha ihb | alt a b iha ihb => simp [descends, iha, ihb]
  | absent a ih | many a ih | group a ih | node k a ih | wrap k r a ih | role r a ih => exact ih
  | _ => rfl

theorem derive_suffix {grammar : ν → Rule ν} (fuel : Nat) (n : ν) (ts : List Token) (s : State)
    (h : derive grammar fuel n ts = some s) : s.rest <:+ ts := by
  induction fuel generalizing n ts s with
  | zero => cases h
  | succ fuel ih => exact run_suffix ih h

/-- Of a grammar with fewer than `w` ranks, `w` levels are enough for every token. -/
theorem derive_stable {grammar : ν → Rule ν} {rank : ν → Nat} {w : Nat} (hrank : ∀ n, rank n < w)
    (hdescends : ∀ n, (grammar n).descends rank (rank n) = true) {fuel fuel' : Nat} {n : ν}
    {ts : List Token} (h : w * ts.length + rank n < fuel) (h' : w * ts.length + rank n < fuel') :
    derive grammar fuel n ts = derive grammar fuel' n ts := by
  induction fuel generalizing fuel' n ts with
  | zero => cases h
  | succ fuel ih =>
    obtain ⟨fuel', rfl⟩ := Nat.exists_eq_succ_of_ne_zero (Nat.ne_zero_of_lt h')
    refine run_congr (derive_suffix fuel) (fun m us hus hless => ?_) List.suffix_rfl
      (.inr (hdescends n))
    have hlower : w * us.length + rank m < w * ts.length + rank n := by
      rcases hless with hlt | hlt
      · calc w * us.length + rank m < w * us.length + w := Nat.add_lt_add_left (hrank m) _
          _ = w * (us.length + 1) := rfl
          _ ≤ w * ts.length := Nat.mul_le_mul_left w hlt
          _ ≤ w * ts.length + rank n := Nat.le_add_right _ _
      · exact Nat.add_lt_add_of_le_of_lt (Nat.mul_le_mul_left w hus.length_le) hlt
    exact ih (by omega) (by omega)

end Rule

namespace Grammar

open Rule

/-- The ranks of the nonterminals: before its first token, a rule comes to lower ones only. -/
def rank : Nonterminal → Nat
  | .type _ => 1
  | .unary _ => 1
  | .tier _ n => 2 + (5 - n)
  | .simple _ _ => 8
  | .statement => 9
  | .sourceFile => 10
  | _ => 0

theorem grammar_descends (n : Nonterminal) : (grammar n).descends rank (rank n) = true := by
  have hlisted : ∀ n ∈ nonterminals, (grammar n).descends rank (rank n) = true := by
    decide +kernel
  rcases mem_nonterminals_or n with hn | ⟨p, m, rfl⟩
  · exact hlisted n hn
  · simp [rank, grammar, tierRule, tiers, descends]

theorem rank_lt (n : Nonterminal) : rank n < 16 := by
  cases n <;> simp only [rank] <;> omega

/-- The bound that parsing takes is no limit: every larger one gives the same. -/
theorem derive_eq_derive (n : Nonterminal) {ts : List Token} {fuel : Nat}
    (h : nestingBound ts ≤ fuel) :
    derive grammar fuel n ts = derive grammar (nestingBound ts) n ts := by
  have := rank_lt n
  unfold nestingBound at h ⊢
  exact derive_stable rank_lt grammar_descends (by omega) (by omega)

/-- Beyond the bound that parsing takes, the bound does not matter to any rule. -/
theorem run_derive_eq {fuel : Nat} {a : Production} {s : State}
    (h : nestingBound s.rest ≤ fuel) :
    run (derive grammar fuel) a s = run (derive grammar (nestingBound s.rest)) a s := by
  refine run_congr (derive_suffix fuel) (fun n us hus _ => ?_) List.suffix_rfl
    (.inr (descends_const a))
  have hle : nestingBound us ≤ nestingBound s.rest :=
    Nat.mul_le_mul_left 16 (Nat.add_le_add_right hus.length_le 1)
  rw [derive_eq_derive n (hle.trans h), derive_eq_derive n hle]

end Grammar

end CtxThread.Code
