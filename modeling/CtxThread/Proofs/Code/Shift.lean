import CtxThread.Proofs.Code.Bound

/-!
# Running rules elsewhere

What a rule makes of tokens does not depend on where they stand: moved tokens give moved nodes. Nor
does it depend on the nodes that are there already, if the rule only appends to them.

## Main definitions

- `Tree.shift`, `Token.shift`, `Rule.State.shift`: moved by a number of bytes
- `Rule.State.after`: more nodes in front
- `Rule.nextLexeme?`: what comes next, comments and line ends aside

## Main statements

- `Rule.run_shift`, `Rule.derive_shift`: moved tokens give moved nodes
- `Rule.run_append`: the nodes that are there already stay in front
- `Rule.iterate_stable`: as many repetitions as there are tokens are enough
- `Rule.run_commaList_cons`: a comma list may have one more element in front
-/

namespace CtxThread.Code

/-! ## Moved trees and tokens -/

namespace Tree

mutual

/-- The tree moved on by `d` bytes. -/
def shift (d : Nat) : Tree → Tree
  | ⟨k, r, start, stop, bytes, children⟩ =>
    ⟨k, r, start + d, stop + d, bytes, shifts d children⟩

/-- The trees moved on by `d` bytes. -/
def shifts (d : Nat) : List Tree → List Tree
  | [] => []
  | t :: ts => shift d t :: shifts d ts

end

variable (d : Nat) (t : Tree)

theorem shifts_eq_map (ts : List Tree) : shifts d ts = ts.map (shift d) := by
  induction ts with
  | nil => rfl
  | cons t ts ih => rw [shifts, ih, List.map_cons]

@[simp] theorem shift_kind : (t.shift d).kind = t.kind := by cases t; rfl

@[simp] theorem shift_role : (t.shift d).role = t.role := by cases t; rfl

@[simp] theorem shift_start : (t.shift d).start = t.start + d := by cases t; rfl

@[simp] theorem shift_stop : (t.shift d).stop = t.stop + d := by cases t; rfl

@[simp] theorem shift_bytes : (t.shift d).bytes = t.bytes := by cases t; rfl

@[simp] theorem shift_children : (t.shift d).children = t.children.map (shift d) := by
  cases t
  exact shifts_eq_map d _

theorem shift_mk (k : Kind) (r : Option Role) (start stop : Nat) (bytes : Bytes)
    (ts : List Tree) : shift d ⟨k, r, start, stop, bytes, ts⟩ =
      ⟨k, r, start + d, stop + d, bytes, ts.map (shift d)⟩ := by
  rw [shift, shifts_eq_map]

theorem shift_withRole (r : Option Role) : ({ t with role := r } : Tree).shift d =
    ⟨t.kind, r, (t.shift d).start, (t.shift d).stop, (t.shift d).bytes, (t.shift d).children⟩ := by
  cases t
  rfl

end Tree

/-- The token moved on by `d` bytes. -/
def Token.shift (d : Nat) (t : Token) : Token :=
  { t with start := t.start + d, inner := t.inner.map (Tree.shift d) }

theorem Token.tree_shift (d : Nat) (t : Token) (k : Kind) :
    (t.shift d).tree k = (t.tree k).shift d := by
  rw [tree, tree, Tree.shift_mk, stop, stop, shift]
  dsimp only
  rw [Nat.add_right_comm]

namespace Rule

/-- The nodes and the tokens moved on by `d` bytes. -/
def State.shift (d : Nat) (s : State) : State :=
  ⟨s.out.map (Tree.shift d), s.rest.map (Token.shift d)⟩

/-! ## Single steps -/

theorem skipComments_shift (d : Nat) (out : List Tree) (ts : List Token) :
    skipComments (out.map (Tree.shift d)) (ts.map (Token.shift d)) =
      (skipComments out ts).shift d := by
  induction ts generalizing out with
  | nil => rfl
  | cons t ts ih =>
    rw [List.map_cons, skipComments, skipComments]
    by_cases hcomment : t.lexeme = .comment
    · rw [if_pos hcomment, if_pos (show (t.shift d).lexeme = .comment from hcomment), ← ih,
        List.map_append, Token.tree_shift]
      rfl
    · rw [if_neg hcomment, if_neg (show (t.shift d).lexeme ≠ .comment from hcomment)]
      rfl

theorem skipBlanks_shift (d : Nat) (out : List Tree) (ts : List Token) :
    skipBlanks (out.map (Tree.shift d)) (ts.map (Token.shift d)) =
      (skipBlanks out ts).shift d := by
  induction ts generalizing out with
  | nil => rfl
  | cons t ts ih =>
    rw [List.map_cons, skipBlanks, skipBlanks]
    by_cases hcomment : t.lexeme = .comment
    · rw [if_pos hcomment, if_pos (show (t.shift d).lexeme = .comment from hcomment), ← ih,
        List.map_append, Token.tree_shift]
      rfl
    · rw [if_neg hcomment, if_neg (show (t.shift d).lexeme ≠ .comment from hcomment)]
      by_cases hnewline : t.lexeme = .newline
      · rw [if_pos hnewline, if_pos (show (t.shift d).lexeme = .newline from hnewline), ih]
      · rw [if_neg hnewline, if_neg (show (t.shift d).lexeme ≠ .newline from hnewline)]
        rfl

theorem takeToken_shift (d : Nat) (t : Terminal) (s : State) :
    takeToken t (s.shift d) = (takeToken t s).map (State.shift d) := by
  rw [takeToken, takeToken, State.shift, skipBlanks_shift]
  cases hrest : (skipBlanks s.out s.rest).rest with
  | nil => simp [State.shift, hrest]
  | cons tok rest =>
    simp only [State.shift, hrest, List.map_cons, Option.map_map]
    change Option.map _ (t.accept? tok.lexeme) = _
    refine congrArg (Option.map · (t.accept? tok.lexeme)) (funext fun k => ?_)
    rw [Function.comp_apply, State.shift, List.map_append, Token.tree_shift]
    rfl

theorem takeNewline_shift (d : Nat) (s : State) :
    takeNewline (s.shift d) = (takeNewline s).map (State.shift d) := by
  rw [takeNewline, takeNewline, State.shift, skipComments_shift]
  cases hrest : (skipComments s.out s.rest).rest with
  | nil => simp [State.shift, hrest]
  | cons tok rest =>
    simp only [State.shift, hrest, List.map_cons]
    by_cases hnewline : tok.lexeme = .newline
    · rw [if_pos hnewline, if_pos (show (tok.shift d).lexeme = .newline from hnewline)]
      simp [State.shift, Token.tree_shift]
    · rw [if_neg hnewline, if_neg (show (tok.shift d).lexeme ≠ .newline from hnewline)]
      rfl

theorem onSameLine_shift (d : Nat) (s : State) : onSameLine (s.shift d) = onSameLine s := by
  rw [onSameLine, onSameLine, State.shift, skipComments_shift]
  cases hrest : (skipComments s.out s.rest).rest with
  | nil => simp [State.shift, hrest]
  | cons tok rest =>
    simp only [State.shift, hrest, List.map_cons]
    rfl

theorem mark_shift (d : Nat) (r : Role) (ts : List Tree) :
    mark r (ts.map (Tree.shift d)) = (mark r ts).map (Tree.shift d) := by
  rw [mark, mark, List.map_map, List.map_map]
  refine List.map_congr_left fun t _ => ?_
  simp only [Function.comp_apply, Tree.shift_kind]
  split
  · rfl
  · exact (Tree.shift_withRole d t (some r)).symm

theorem build_shift (d : Nat) (k : Kind) (ts : List Tree) :
    build k (ts.map (Tree.shift d)) = (build k ts).map (Tree.shift d) := by
  have htake : (ts.map (Tree.shift d)).takeWhile (·.kind = .comment) =
      (ts.takeWhile (·.kind = .comment)).map (Tree.shift d) := by
    simp [List.takeWhile_map, Function.comp_def]
  have hdrop : (ts.map (Tree.shift d)).dropWhile (·.kind = .comment) =
      (ts.dropWhile (·.kind = .comment)).map (Tree.shift d) := by
    simp [List.dropWhile_map, Function.comp_def]
  rw [build, build]
  simp only [htake, hdrop, List.head?_map, List.getLast?_map]
  cases (ts.dropWhile (·.kind = .comment)).head? with
  | none => rfl
  | some a =>
    cases (ts.dropWhile (·.kind = .comment)).getLast? with
    | none => rfl
    | some b =>
      simp [Tree.shift_mk, List.filter_map, Function.comp_def]

theorem iterate_shift {d : Nat} {step step' : State → Option State}
    (hstep : ∀ s, step' (s.shift d) = (step s).map (State.shift d)) (fuel : Nat) (s : State) :
    iterate step' fuel (s.shift d) = (iterate step fuel s).shift d := by
  induction fuel generalizing s with
  | zero => rfl
  | succ fuel ih =>
    rw [iterate, iterate, hstep]
    cases step s with
    | none => rfl
    | some s' =>
      simp only [Option.map_some, ih]
      simp only [State.shift, List.length_map]
      split <;> rfl

/-! ## Rules -/

variable {ν : Type}

/-- What is made of moved nodes is what is made of the nodes, moved. -/
theorem map_shift {d : Nat} {m m' : Option State} {f g : State → State}
    (hm : m' = m.map (State.shift d)) (hf : ∀ s, f (s.shift d) = (g s).shift d) :
    m'.map f = (m.map g).map (State.shift d) := by
  rw [hm, Option.map_map, Option.map_map]
  exact congrArg (Option.map · m) (funext hf)

/-- Running a rule on moved tokens gives moved nodes. -/
theorem run_shift {d : Nat} {call : ν → List Token → Option State}
    (hcall : ∀ n ts, call n (ts.map (Token.shift d)) = (call n ts).map (State.shift d))
    (a : Rule ν) (s : State) : run call a (s.shift d) = (run call a s).map (State.shift d) := by
  induction a generalizing s with
  | done => rfl
  | token t => exact takeToken_shift d t s
  | newline => exact takeNewline_shift d s
  | sameLine =>
    simp only [run, onSameLine_shift]
    split <;> rfl
  | absent a iha =>
    simp only [run, iha, Option.isSome_map]
    split <;> rfl
  | seq a b iha ihb =>
    simp only [run, iha]
    cases run call a s with
    | none => rfl
    | some m => exact ihb m
  | alt a b iha ihb =>
    simp only [run, iha, ihb]
    cases run call a s with
    | none => rfl
    | some m => rfl
  | many a iha =>
    simp only [run, Option.map_some, ← iterate_shift iha]
    simp only [State.shift, List.length_map]
  | call n => exact map_shift (hcall n s.rest) fun m => by simp [State.shift]
  | group a iha => exact map_shift (iha ⟨[], s.rest⟩) fun m => by simp [State.shift]
  | node k a iha => exact map_shift (iha ⟨[], s.rest⟩) fun m => by simp [State.shift, build_shift]
  | wrap k r a iha =>
    refine map_shift (iha ⟨[], s.rest⟩) fun m => ?_
    cases r <;> simp [State.shift, mark_shift, ← build_shift]
  | role r a iha => exact map_shift (iha ⟨[], s.rest⟩) fun m => by simp [State.shift, mark_shift]

/-- Running a nonterminal on moved tokens gives moved nodes. -/
theorem derive_shift (grammar : ν → Rule ν) (d fuel : Nat) (n : ν) (ts : List Token) :
    derive grammar fuel n (ts.map (Token.shift d)) =
      (derive grammar fuel n ts).map (State.shift d) := by
  induction fuel generalizing n ts with
  | zero => rfl
  | succ fuel ih => exact run_shift ih (grammar n) ⟨[], ts⟩

/-! ## The nodes in front -/

/-- The state with more nodes in front. -/
def State.after (front : List Tree) (s : State) : State := ⟨front ++ s.out, s.rest⟩

theorem skipComments_append (front out : List Tree) (ts : List Token) :
    skipComments (front ++ out) ts = (skipComments out ts).after front := by
  induction ts generalizing out with
  | nil => rfl
  | cons t ts ih =>
    rw [skipComments, skipComments]
    split
    · rw [← ih, List.append_assoc]
    · rfl

theorem skipBlanks_append (front out : List Tree) (ts : List Token) :
    skipBlanks (front ++ out) ts = (skipBlanks out ts).after front := by
  induction ts generalizing out with
  | nil => rfl
  | cons t ts ih =>
    rw [skipBlanks, skipBlanks]
    split
    · rw [← ih, List.append_assoc]
    · split
      · exact ih out
      · rfl

theorem takeToken_append (front : List Tree) (t : Terminal) (s : State) :
    takeToken t (s.after front) = (takeToken t s).map (State.after front) := by
  rw [takeToken, takeToken, State.after, skipBlanks_append]
  simp only [State.after]
  split
  · rfl
  · rw [Option.map_map]
    refine congrArg (Option.map · _) (funext fun k => ?_)
    simp [State.after]

theorem takeNewline_append (front : List Tree) (s : State) :
    takeNewline (s.after front) = (takeNewline s).map (State.after front) := by
  rw [takeNewline, takeNewline, State.after, skipComments_append]
  simp only [State.after]
  split
  · rfl
  · split
    · simp [State.after]
    · rfl

theorem onSameLine_append (front : List Tree) (s : State) :
    onSameLine (s.after front) = onSameLine s := by
  rw [onSameLine, onSameLine, State.after, skipComments_append]
  rfl

theorem iterate_rest {step : State → Option State}
    (hstep : ∀ s s', s.rest = s'.rest → (step s).map State.rest = (step s').map State.rest)
    (fuel : Nat) {s s' : State} (h : s.rest = s'.rest) :
    (iterate step fuel s).rest = (iterate step fuel s').rest := by
  induction fuel generalizing s s' with
  | zero => exact h
  | succ fuel ih =>
    have hnext := hstep s s' h
    rw [iterate, iterate]
    cases hm : step s with
    | none =>
      rw [hm, Option.map_none, eq_comm, Option.map_eq_none_iff] at hnext
      rw [hnext]
      exact h
    | some m =>
      rw [hm, Option.map_some, eq_comm] at hnext
      obtain ⟨m', hm', hrest⟩ := Option.map_eq_some_iff.mp hnext
      rw [hm']
      simp only [hrest, h]
      split
      · exact ih hrest.symm
      · exact h

/-- A step that does the same whatever is in front leaves the same tokens. -/
theorem rest_of_append {step : State → Option State}
    (hstep : ∀ front s, step (s.after front) = (step s).map (State.after front))
    (out out' : List Tree) (ts : List Token) :
    (step ⟨out, ts⟩).map State.rest = (step ⟨out', ts⟩).map State.rest := by
  have hfront : ∀ front : List Tree,
      (step ⟨front, ts⟩).map State.rest = (step ⟨[], ts⟩).map State.rest := by
    intro front
    have hafter := hstep front ⟨[], ts⟩
    rw [State.after, List.append_nil] at hafter
    rw [hafter, Option.map_map]
    rfl
  rw [hfront out, hfront out']

/-- Whether a rule fits, and how far it reaches, does not depend on the nodes in front. -/
theorem run_rest {call : ν → List Token → Option State} {a : Rule ν} {s s' : State}
    (h : s.rest = s'.rest) :
    (run call a s).map State.rest = (run call a s').map State.rest := by
  -- both are the state without nodes, with other nodes in front
  obtain ⟨out, ts⟩ := s
  obtain ⟨out', _⟩ := s'
  obtain rfl := h
  induction a generalizing out out' ts with
  | done => rfl
  | token t => exact rest_of_append (fun front s => takeToken_append front t s) out out' ts
  | newline => exact rest_of_append takeNewline_append out out' ts
  | sameLine =>
    refine rest_of_append (fun front s => ?_) out out' ts
    simp only [run, onSameLine_append]
    split <;> rfl
  | absent a iha =>
    have hfits := congrArg Option.isSome (iha out ts out')
    simp only [Option.isSome_map] at hfits
    simp only [run, hfits]
    split <;> rfl
  | seq a b iha ihb =>
    have hfirst := iha out ts out'
    simp only [run]
    cases hm : run call a ⟨out, ts⟩ with
    | none =>
      rw [hm, Option.map_none, eq_comm, Option.map_eq_none_iff] at hfirst
      rw [hfirst]
    | some m =>
      rw [hm, Option.map_some, eq_comm] at hfirst
      obtain ⟨⟨out'', rest⟩, hm', hrest⟩ := Option.map_eq_some_iff.mp hfirst
      obtain rfl := hrest
      rw [hm']
      exact ihb m.out m.rest out''
  | alt a b iha ihb =>
    have hfirst := iha out ts out'
    simp only [run]
    cases hm : run call a ⟨out, ts⟩ with
    | none =>
      rw [hm, Option.map_none, eq_comm, Option.map_eq_none_iff] at hfirst
      rw [hfirst]
      exact ihb out ts out'
    | some m =>
      rw [hm, Option.map_some, eq_comm] at hfirst
      obtain ⟨m', hm', hrest⟩ := Option.map_eq_some_iff.mp hfirst
      rw [hm']
      exact congrArg some hrest.symm
  | many a iha =>
    refine congrArg some (iterate_rest (fun s s' h => ?_) ts.length rfl)
    obtain ⟨out, ts⟩ := s
    obtain ⟨out', _⟩ := s'
    obtain rfl := h
    exact iha out ts out'
  | call n | group a _ | node k a _ | wrap k r a _ | role r a _ =>
    simp only [run, Option.map_map]
    rfl

theorem iterate_append {front : List Tree} {step : State → Option State}
    (hstep : ∀ s, step (s.after front) = (step s).map (State.after front)) (fuel : Nat)
    (s : State) : iterate step fuel (s.after front) = (iterate step fuel s).after front := by
  induction fuel generalizing s with
  | zero => rfl
  | succ fuel ih =>
    rw [iterate, iterate, hstep]
    cases step s with
    | none => rfl
    | some s' =>
      simp only [Option.map_some, ih]
      by_cases hlt : s'.rest.length < s.rest.length
      · rw [if_pos hlt]
        exact if_pos hlt
      · rw [if_neg hlt]
        exact if_neg hlt

/-- A rule that only appends does the same whatever is in front. -/
theorem run_append (call : ν → List Token → Option State) (front : List Tree) {a : Rule ν}
    (ha : a.Appends) (s : State) :
    run call a (s.after front) = (run call a s).map (State.after front) := by
  induction a generalizing s with
  | done => rfl
  | token t => exact takeToken_append front t s
  | newline => exact takeNewline_append front s
  | sameLine =>
    simp only [run, onSameLine_append]
    split <;> rfl
  | absent a _ =>
    have hrest : (run call a (s.after front)).map State.rest = (run call a s).map State.rest :=
      run_rest rfl
    have hfits := congrArg Option.isSome hrest
    simp only [Option.isSome_map] at hfits
    simp only [run, hfits]
    split <;> rfl
  | seq a b iha ihb =>
    simp only [run, iha ha.1]
    cases run call a s with
    | none => rfl
    | some m => exact ihb ha.2 m
  | alt a b iha ihb =>
    simp only [run, iha ha.1, ihb ha.2]
    cases run call a s with
    | none => rfl
    | some m => rfl
  | many a iha =>
    simp only [run, Option.map_some, ← iterate_append (iha ha)]
    rfl
  | wrap k r a _ => exact ha.elim
  | call n | group a _ | node k a _ | role r a _ =>
    simp only [run, State.after, Option.map_map]
    refine congrArg (Option.map · _) (funext fun m => ?_)
    simp [State.after]

theorem iterate_nil {step : State → Option State} {s : State} (h : s.rest = []) (fuel : Nat) :
    iterate step fuel s = s := by
  cases fuel with
  | zero => rfl
  | succ fuel =>
    rw [iterate]
    cases step s with
    | none => rfl
    | some s' => simp [h]

/-- Repetitions beyond the number of tokens change nothing. -/
theorem iterate_stable {step : State → Option State} {fuel fuel' : Nat} {s : State}
    (h : s.rest.length ≤ fuel) (h' : s.rest.length ≤ fuel') :
    iterate step fuel s = iterate step fuel' s := by
  induction fuel generalizing fuel' s with
  | zero =>
    have hnil := List.eq_nil_of_length_eq_zero (Nat.le_zero.mp h)
    rw [iterate_nil hnil, iterate_nil hnil]
  | succ fuel ih =>
    cases fuel' with
    | zero =>
      have hnil := List.eq_nil_of_length_eq_zero (Nat.le_zero.mp h')
      rw [iterate_nil hnil, iterate_nil hnil]
    | succ fuel' =>
      rw [iterate, iterate]
      cases step s with
      | none => rfl
      | some s' =>
        dsimp only
        split
        · exact ih (by omega) (by omega)
        · rfl

variable {call : ν → List Token → Option State}

/-! ## The next token -/

/-- What comes next, comments and line ends aside. -/
def nextLexeme? (ts : List Token) : Option Lexeme := (skipBlanks [] ts).rest.head?.map (·.lexeme)

theorem skipBlanks_rest (out : List Tree) (ts : List Token) :
    (skipBlanks out ts).rest = (skipBlanks [] ts).rest := by
  have h := skipBlanks_append out [] ts
  rw [List.append_nil] at h
  rw [h]
  rfl

theorem nextLexeme?_cons {tok : Token} (hcomment : tok.lexeme ≠ .comment)
    (hnewline : tok.lexeme ≠ .newline) (ts : List Token) :
    nextLexeme? (tok :: ts) = some tok.lexeme := by
  rw [nextLexeme?, skipBlanks, if_neg hcomment, if_neg hnewline]
  rfl

/-- A token that is not accepted is not taken. -/
theorem takeToken_eq_none {t : Terminal} {s : State} {l : Lexeme} (h : nextLexeme? s.rest = some l)
    (hl : t.accept? l = none) : takeToken t s = none := by
  rw [nextLexeme?, ← skipBlanks_rest s.out] at h
  unfold takeToken
  dsimp only
  split
  · rfl
  · next tok rest hrest =>
    rw [hrest] at h
    obtain rfl : tok.lexeme = l := by simpa using h
    rw [hl, Option.map_none]

/-- What is taken came next. -/
theorem nextLexeme?_of_takeToken {g : Sign} {s s' : State}
    (h : takeToken (.sign g) s = some s') : nextLexeme? s.rest = some (.sign g) := by
  rw [nextLexeme?, ← skipBlanks_rest s.out]
  unfold takeToken at h
  dsimp only at h
  split at h
  · cases h
  · next tok rest hrest =>
    obtain ⟨k, hk, _⟩ := Option.map_eq_some_iff.mp h
    obtain ⟨_, ⟨s, hs, hl⟩ | ⟨k', hs⟩ | ⟨_, hs⟩⟩ := Terminal.accept?_cases hk
    · cases hs
      rw [hrest, List.head?_cons, Option.map_some, hl]
    · cases hs
    · exact absurd rfl (hs g)

/-- A token that comes first is taken. -/
theorem takeToken_cons {t : Terminal} {k : Kind} {tok : Token} (h : t.accept? tok.lexeme = some k)
    (out : List Tree) (rest : List Token) :
    takeToken t ⟨out, tok :: rest⟩ = some ⟨out ++ [tok.tree k], rest⟩ := by
  have hcomment : tok.lexeme ≠ .comment := by
    intro hl
    rw [hl] at h
    cases t <;> cases h
  have hnewline : tok.lexeme ≠ .newline := by
    intro hl
    rw [hl] at h
    cases t <;> cases h
  rw [takeToken]
  simp only [skipBlanks, hcomment, hnewline, if_false, h, Option.map_some]

/-- The first of several rules is taken where it fits. -/
theorem run_choice_of_first {a : Rule ν} {s s' : State} (h : run call a s = some s')
    (as : List (Rule ν)) : run call (choice (a :: as)) s = some s' := by
  cases as with
  | nil => exact h
  | cons b as =>
    rw [choice, run, h]
    exact List.cons_ne_nil b as

/-! ## Comma lists -/

theorem iterate_of_none {step : State → Option State} {s : State} (h : step s = none)
    (fuel : Nat) : iterate step fuel s = s := by
  cases fuel with
  | zero => rfl
  | succ fuel => rw [iterate, h]

/-- An element and a comma may come in front of a comma list. -/
theorem run_commaList_cons {a : Rule ν} (ha : a.Appends)
    (hcall : ∀ n ts s, call n ts = some s → s.rest <:+ ts) {ts rest : List Token} {x : List Tree}
    {comma : Token} (hcomma : comma.lexeme = .sign .comma) {s : State}
    (hfirst : run call a ⟨[], ts⟩ = some ⟨x, comma :: rest⟩)
    (h : run call (commaList a) ⟨[], rest⟩ = some s) :
    run call (commaList a) ⟨[], ts⟩ =
      some (s.after (x ++ [comma.tree (.sign .comma)])) := by
  obtain ⟨m, hlist, hend⟩ := Option.bind_eq_some_iff.mp h
  obtain ⟨m₀, hm₀, hmany⟩ := Option.bind_eq_some_iff.mp hlist
  obtain rfl := Option.some.inj hmany
  let front := x ++ [comma.tree (.sign .comma)]
  let step := run call (.seq (sign .comma) a)
  have hstep : step ⟨x, comma :: rest⟩ = some (m₀.after front) := by
    have htake : takeToken (.sign .comma) ⟨x, comma :: rest⟩ = some (State.after front ⟨[], rest⟩) := by
      rw [takeToken_cons (k := .sign .comma) (by rw [hcomma]; rfl), State.after, List.append_nil]
    change ((takeToken (.sign .comma) ⟨x, comma :: rest⟩).bind (run call a)) = _
    rw [htake, Option.bind_some, run_append call front ha, hm₀, Option.map_some]
  have hshorter : (m₀.after front).rest.length < (comma :: rest).length :=
    Nat.lt_succ_of_le (run_suffix hcall hm₀).length_le
  have hiterate : iterate step (comma :: rest).length ⟨x, comma :: rest⟩ =
      (iterate step m₀.rest.length m₀).after front := by
    have happends : (Rule.seq (sign .comma) a).Appends := ⟨trivial, ha⟩
    rw [← iterate_append (run_append call front happends), List.length_cons, iterate, hstep]
    dsimp only
    rw [if_pos hshorter]
    exact iterate_stable (run_suffix hcall hm₀).length_le le_rfl
  have hopt : (opt (sign .comma) : Rule ν).Appends := ⟨trivial, trivial⟩
  change ((run call a ⟨[], ts⟩).bind fun s => some (iterate step s.rest.length s)).bind _ = _
  rw [hfirst, Option.bind_some]
  dsimp only
  rw [hiterate, Option.bind_some, run_append call front hopt, hend, Option.map_some]

end Rule

end CtxThread.Code
