import CtxThread.Proofs.Code.Shift

/-!
# Reading a part of a file again

What is left of the tokens of a text somewhere is what is scanned from there on, and the nodes of a
kind that one nonterminal alone builds are what that nonterminal makes of the tokens there. So such
a node can be read off the text at the offset where it starts, without the text in front of it.

## Main definitions

- `Token.scanAt`: the tokens of a text from an offset on
- `Tree.Every`: all nodes of one kind in a tree have a property
- `Rule.avoids`: a rule that builds no node of a kind itself
- `Rule.bodies`: what a rule builds the nodes of a kind by

## Main statements

- `Token.scan_suffix`: the tokens that are left somewhere are those from the next one on
- `Grammar.derive_every`: nodes of a kind that one nonterminal builds come from that nonterminal
- `Grammar.derive_every_bodies`: nodes of a kind come from what the rules build them by
-/

namespace CtxThread.Code

/-! ## Tokens -/

namespace Token

/-- The tokens of a text from the offset `pos` on. -/
def scanAt (src : Bytes) (pos : Nat) : List Token :=
  scanFrom (src.length - pos) pos (src.drop pos)

/-- Steps beyond the length of the text change nothing. -/
theorem scanFrom_stable {fuel fuel' pos : Nat} {src : Bytes} (h : src.length ≤ fuel)
    (h' : src.length ≤ fuel') : scanFrom fuel pos src = scanFrom fuel' pos src := by
  induction fuel generalizing fuel' pos src with
  | zero =>
    rw [List.eq_nil_of_length_eq_zero (Nat.le_zero.mp h)]
    cases fuel' <;> rfl
  | succ fuel ih =>
    cases src with
    | nil => cases fuel' <;> rfl
    | cons b rest =>
      rw [List.length_cons] at h h'
      obtain ⟨fuel', rfl⟩ := Nat.exists_eq_succ_of_ne_zero (Nat.ne_zero_of_lt h')
      rw [scanFrom, scanFrom]
      dsimp only
      split
      · exact ih (by omega) (by omega)
      · refine congrArg (_ :: ·) (ih ?_ ?_) <;>
          · rw [List.length_drop]
            omega

theorem innerTrees_shift (d pos : Nat) (src : Bytes) (parts : List (Kind × Nat)) :
    innerTrees (pos + d) src parts = (innerTrees pos src parts).map (Tree.shift d) := by
  induction parts generalizing pos src with
  | nil => rfl
  | cons p parts ih =>
    rw [innerTrees, innerTrees, List.map_cons, ← ih, Tree.shift_mk, Nat.add_right_comm]
    rfl

/-- The tokens of a text that starts later are the tokens moved on. -/
theorem scanFrom_shift (d fuel pos : Nat) (src : Bytes) :
    scanFrom fuel (pos + d) src = (scanFrom fuel pos src).map (shift d) := by
  have hshape : ∀ (pos : Nat) (src : Bytes) (s : Shape),
      ofShape (pos + d) src s = (ofShape pos src s).shift d := by
    intro pos src s
    rw [ofShape, innerTrees_shift]
    rfl
  induction fuel generalizing pos src with
  | zero => rfl
  | succ fuel ih =>
    cases src with
    | nil => rfl
    | cons b rest =>
      rw [scanFrom, scanFrom]
      dsimp only
      split
      · rw [Nat.add_right_comm, ih]
      · rw [List.map_cons, hshape, ← ih]
        change _ :: scanFrom fuel (pos + d + (ofShape pos _ _).bytes.length) _ = _
        rw [Nat.add_right_comm]
        rfl

/-- What is left of the tokens is what is scanned from the next of them on. -/
theorem scanFrom_suffix {fuel pos : Nat} {src : Bytes} (hfuel : src.length - pos ≤ fuel) {t : Token}
    {ts : List Token} (h : t :: ts <:+ scanFrom fuel pos (src.drop pos)) :
    t :: ts = scanAt src t.start := by
  induction fuel generalizing pos with
  | zero => cases List.suffix_nil.mp h
  | succ fuel ih =>
    cases htext : src.drop pos with
    | nil =>
      rw [htext] at h
      cases List.suffix_nil.mp h
    | cons b rest =>
      have hrest : ∀ n, rest.drop n = src.drop (pos + (n + 1)) := by
        intro n
        rw [← List.drop_drop, htext, List.drop_succ_cons]
      have hscan : scanFrom (fuel + 1) pos (b :: rest) = scanFrom (src.length - pos) pos (b :: rest) :=
        scanFrom_stable (by rw [← htext, List.length_drop]; omega)
          (by rw [← htext, List.length_drop])
      rw [htext] at h
      by_cases hblank : (Bytes.isBlank b && b ≠ Bytes.lineFeed) = true
      · rw [scanFrom, if_pos hblank, ← List.drop_zero (l := rest), hrest] at h
        exact ih (by omega) h
      · have hpos := (next_fits (b :: rest)).pos
        have hlen : 0 < (ofShape pos (b :: rest) (next (b :: rest))).bytes.length := by
          simp only [ofShape, List.length_take, List.length_cons]
          omega
        rw [scanFrom, if_neg hblank] at h hscan
        rcases List.suffix_cons_iff.mp h with heq | hsuffix
        · obtain ⟨rfl, rfl⟩ := List.cons_eq_cons.mp heq
          rw [scanAt, show (ofShape pos (b :: rest) (next (b :: rest))).start = pos from rfl, htext]
          exact hscan
        · rw [hrest, Nat.sub_add_cancel hlen] at hsuffix
          exact ih (by omega) hsuffix

theorem scan_suffix {src : Bytes} {t : Token} {ts : List Token} (h : t :: ts <:+ scan src) :
    t :: ts = scanAt src t.start := by
  unfold scan at h
  split at h
  · exact scanFrom_suffix (by omega) h
  · have hfrom : t :: ts <:+ scanFrom src.length 0 (src.drop 0) := h
    exact scanFrom_suffix (Nat.sub_le _ _) hfrom

end Token

/-! ## Where the nodes of one kind come from -/

/-- All nodes of kind `k` in the tree have the property `P`. -/
def Tree.Every (k : Kind) (P : Tree → Prop) (t : Tree) : Prop := ∀ n ∈ t.walk, n.kind = k → P n

namespace Rule

variable {ν : Type}

/-- The rule builds no node of kind `k` itself. -/
def avoids (k : Kind) : Rule ν → Bool
  | .token t => t.kind ≠ k
  | .seq a b | .alt a b => a.avoids k && b.avoids k
  | .many a | .group a | .role _ a => a.avoids k
  | .node k' a | .wrap k' _ a => k' ≠ k && a.avoids k
  | .done | .newline | .sameLine | .absent _ | .call _ => true

/-- What the nodes of kind `k` that the rule builds are built by. -/
def bodies (k : Kind) : Rule ν → List (Rule ν)
  | .seq a b | .alt a b => a.bodies k ++ b.bodies k
  | .many a | .group a | .role _ a | .wrap _ _ a => a.bodies k
  | .node k' a => if k' = k then a :: a.bodies k else a.bodies k
  | .done | .token _ | .newline | .sameLine | .absent _ | .call _ => []

/-- Nodes of kind `k` are built on their own only, and are no tokens. -/
def encloses (k : Kind) : Rule ν → Bool
  | .token t => t.kind ≠ k
  | .seq a b | .alt a b => a.encloses k && b.encloses k
  | .many a | .group a | .role _ a | .node _ a => a.encloses k
  | .wrap k' _ a => k' ≠ k && a.encloses k
  | .done | .newline | .sameLine | .absent _ | .call _ => true

theorem encloses_of_avoids {k : Kind} {a : Rule ν} (h : a.avoids k = true) : a.encloses k = true := by
  induction a with
  | seq a b iha ihb | alt a b iha ihb =>
    obtain ⟨ha, hb⟩ := Bool.and_eq_true_iff.mp h
    exact Bool.and_eq_true_iff.mpr ⟨iha ha, ihb hb⟩
  | many a iha | group a iha | role r a iha => exact iha h
  | node k' a iha => exact iha (Bool.and_eq_true_iff.mp h).2
  | wrap k' r a iha =>
    obtain ⟨hne, ha⟩ := Bool.and_eq_true_iff.mp h
    exact Bool.and_eq_true_iff.mpr ⟨hne, iha ha⟩
  | token t => exact h
  | done | newline | sameLine | absent _ _ | call _ => rfl

theorem bodies_of_avoids {k : Kind} {a : Rule ν} (h : a.avoids k = true) : a.bodies k = [] := by
  induction a with
  | seq a b iha ihb | alt a b iha ihb =>
    obtain ⟨ha, hb⟩ := Bool.and_eq_true_iff.mp h
    rw [bodies, iha ha, ihb hb]
    rfl
  | many a iha | group a iha | role r a iha => exact iha h
  | node k' a iha =>
    obtain ⟨hne, ha⟩ := Bool.and_eq_true_iff.mp h
    rw [bodies, if_neg (of_decide_eq_true hne)]
    exact iha ha
  | wrap k' r a iha => exact iha (Bool.and_eq_true_iff.mp h).2
  | token _ | done | newline | sameLine | absent _ _ | call _ => rfl

/-- A kind of nodes that are built of others. -/
structure IsBuilt (k : Kind) : Prop where
  comment : k ≠ .comment
  newline : k ≠ .newline
  inner : Token.isInner k = false

/-- Comments in front stay in front of a node. -/
theorem build_comments (k : Kind) {cs : List Tree} (hcs : ∀ c ∈ cs, c.kind = .comment)
    (ts : List Tree) : build k (cs ++ ts) = cs ++ build k ts := by
  have htake : (cs ++ ts).takeWhile (·.kind = .comment) =
      cs ++ ts.takeWhile (·.kind = .comment) :=
    List.takeWhile_append_of_pos (by simpa using hcs)
  have hdrop : (cs ++ ts).dropWhile (·.kind = .comment) = ts.dropWhile (·.kind = .comment) :=
    List.dropWhile_append_of_pos (by simpa using hcs)
  simp only [build, htake, hdrop]
  split
  · rw [List.append_assoc]
  · rfl

/-- The node over nodes of which the first is no comment. -/
theorem build_cons (k : Kind) {t : Tree} (ht : t.kind ≠ .comment) (ts : List Tree) :
    build k (t :: ts) = [⟨k, none, t.start, ((t :: ts).getLast (by simp)).stop, [],
      (t :: ts).filter (·.kind ≠ .newline)⟩] := by
  simp only [build, List.takeWhile_cons, List.dropWhile_cons, ht, decide_false,
    Bool.false_eq_true, if_false, List.head?_cons, List.getLast?_eq_some_getLast (List.cons_ne_nil t ts)]
  rfl

section Every

variable {k : Kind} {P : Tree → Prop}

theorem every_of_children {t : Tree} (ht : t.kind = k → P t) (hc : ∀ c ∈ t.children, c.Every k P) :
    t.Every k P := by
  intro n hn hk
  rcases Tree.mem_walk_iff.mp hn with rfl | ⟨c, hmem, hn⟩
  · exact ht hk
  · exact hc c hmem n hn hk

theorem every_children {t : Tree} (h : t.Every k P) : ∀ c ∈ t.children, c.Every k P :=
  fun c hc n hn => h n (Tree.mem_walk_iff.mpr (.inr ⟨c, hc, hn⟩))

/-- A token becomes a node of its kind, with leaves below. -/
theorem every_tree (hk : IsBuilt k) {tok : Token} (htok : tok.Whole) {k' : Kind} (hne : k' ≠ k) :
    (tok.tree k').Every k P := by
  refine every_of_children (fun h => absurd h hne) fun c hc => ?_
  obtain ⟨hleaf, hinner⟩ := htok.leaf c hc
  refine every_of_children (fun h => ?_) (by rw [hleaf]; intro d hd; cases hd)
  rw [h, hk.inner] at hinner
  cases hinner

theorem every_build {ts : List Tree} (hts : ∀ t ∈ ts, t.Every k P) {k' : Kind}
    (hbuilt : ∀ t ∈ build k' ts, t.kind = k → P t) : ∀ t ∈ build k' ts, t.Every k P := by
  intro t ht
  refine every_of_children (hbuilt t ht) fun c hc => ?_
  have hsub := (List.takeWhile_append_dropWhile (p := fun t : Tree => decide (t.kind = .comment))
    (l := ts)).symm
  unfold build at ht
  dsimp only at ht
  split at ht
  · rcases List.mem_append.mp ht with ht | ht
    · exact every_children (hts t (hsub ▸ List.mem_append_left _ ht)) c hc
    · obtain rfl := List.mem_singleton.mp ht
      exact hts c (hsub ▸ List.mem_append_right _ (List.mem_filter.mp hc).1)
  · exact every_children (hts t (hsub ▸ List.mem_append_left _ ht)) c hc

theorem every_build_of_ne (hk : IsBuilt k) {k' : Kind} (hne : k' ≠ k) {ts : List Tree}
    (hts : ∀ t ∈ ts, t.Every k P) : ∀ t ∈ build k' ts, t.Every k P := by
  refine every_build hts fun t ht htk => ?_
  rcases mem_build ht with hcomment | hk'
  · exact absurd (htk.symm.trans hcomment) hk.comment
  · exact absurd (hk'.symm.trans htk) hne

theorem every_mark (hP : ∀ t r, P t → P { t with role := r }) {r : Role} {ts : List Tree}
    (hts : ∀ t ∈ ts, t.Every k P) : ∀ t ∈ mark r ts, t.Every k P := by
  intro t ht
  obtain ⟨u, hu, rfl⟩ := List.mem_map.mp ht
  split
  · exact hts u hu
  · exact every_of_children (fun hk => hP u (some r) (hts u hu u u.mem_walk_self hk))
      (fun c hc => every_children (hts u hu) c hc)

/-- What is taken off the tokens becomes nodes of other kinds. -/
theorem Takes.every (hk : IsBuilt k) {Q : Token → Prop} {k' : Kind} (hne : k' ≠ k) {s s' : State}
    (hwhole : ∀ tok ∈ s.rest, tok.Whole) (hs : ∀ t ∈ s.out, t.Every k P) (h : Takes Q k' s s') :
    ∀ t ∈ s'.out, t.Every k P := by
  obtain ⟨cs, tok, hout, hcs, htok, _⟩ := h
  rw [hout]
  intro t ht
  rcases List.mem_append.mp ht with ht | ht
  · rcases List.mem_append.mp ht with ht | ht
    · exact hs t ht
    · obtain ⟨c, hc, rfl⟩ := List.mem_map.mp ht
      exact every_tree hk (hwhole c (List.mem_filter.mp (hcs hc)).1) hk.comment.symm
  · obtain rfl := List.mem_singleton.mp ht
    exact every_tree hk (hwhole tok htok) hne

/-- The nodes of kind `k` that a rule leaves come from the nonterminals, or from what it builds such
nodes by. -/
theorem run_every_bodies {call : ν → List Token → Option State} (hk : IsBuilt k)
    (hP : ∀ t r, P t → P { t with role := r }) {ts : List Token} (hwhole : ∀ tok ∈ ts, tok.Whole)
    (hsuffix : ∀ n us s, call n us = some s → s.rest <:+ us)
    (hcall : ∀ n us s, us <:+ ts → call n us = some s → ∀ t ∈ s.out, t.Every k P)
    {a : Rule ν} (ha : a.encloses k = true)
    (hown : ∀ b ∈ a.bodies k, ∀ us m, us <:+ ts → run call b ⟨[], us⟩ = some m →
      ∀ t ∈ build k m.out, t.kind = k → P t)
    {s s' : State} (hs : s.rest <:+ ts)
    (hout : ∀ t ∈ s.out, t.Every k P) (h : run call a s = some s') :
    ∀ t ∈ s'.out, t.Every k P := by
  have hnil : ∀ t ∈ ([] : List Tree), t.Every k P := fun t ht => by cases ht
  have happend : ∀ {xs ys : List Tree}, (∀ t ∈ xs, t.Every k P) → (∀ t ∈ ys, t.Every k P) →
      ∀ t ∈ xs ++ ys, t.Every k P := by
    intro xs ys hxs hys t ht
    exact (List.mem_append.mp ht).elim (hxs t) (hys t)
  induction a generalizing s s' with
  | done => cases h; exact hout
  | token t =>
    exact (takeToken_takes h).every hk (by simpa [encloses] using ha)
      (fun tok htok => hwhole tok (hs.subset htok)) hout
  | newline =>
    exact (takeNewline_takes h).every hk hk.newline.symm
      (fun tok htok => hwhole tok (hs.subset htok)) hout
  | sameLine =>
    simp only [run, Option.ite_none_right_eq_some, Option.some.injEq] at h
    exact h.2 ▸ hout
  | absent a _ =>
    simp only [run, Option.ite_none_left_eq_some, Option.some.injEq] at h
    exact h.2 ▸ hout
  | seq a b iha ihb =>
    obtain ⟨m, hm, hb⟩ := Option.bind_eq_some_iff.mp h
    obtain ⟨ha, hb'⟩ := Bool.and_eq_true_iff.mp ha
    exact ihb hb' (fun c hc => hown c (List.mem_append_right _ hc))
      ((run_suffix hsuffix hm).trans hs)
      (iha ha (fun c hc => hown c (List.mem_append_left _ hc)) hs hout hm) hb
  | alt a b iha ihb =>
    obtain ⟨ha, hb'⟩ := Bool.and_eq_true_iff.mp ha
    simp only [run] at h
    split at h
    · next m hm =>
      cases h
      exact iha ha (fun c hc => hown c (List.mem_append_left _ hc)) hs hout hm
    · exact ihb hb' (fun c hc => hown c (List.mem_append_right _ hc)) hs hout h
  | many a iha =>
    cases h
    exact (iterate_keeps (P := fun m => m.rest <:+ ts ∧ ∀ t ∈ m.out, t.Every k P)
      (fun _ _ hm hstep => ⟨(run_suffix hsuffix hstep).trans hm.1,
        iha ha hown hm.1 hm.2 hstep⟩) _ ⟨hs, hout⟩).2
  | call n =>
    obtain ⟨m, hm, rfl⟩ := Option.map_eq_some_iff.mp h
    exact happend hout (hcall n _ m hs hm)
  | group a iha =>
    obtain ⟨m, hm, rfl⟩ := Option.map_eq_some_iff.mp h
    exact happend hout (iha ha hown (s := ⟨[], s.rest⟩) hs hnil hm)
  | node k' a iha =>
    obtain ⟨m, hm, rfl⟩ := Option.map_eq_some_iff.mp h
    have hinner : ∀ t ∈ m.out, t.Every k P := by
      refine iha ha (fun c hc => hown c ?_) (s := ⟨[], s.rest⟩) hs hnil hm
      rw [bodies]
      split
      · exact List.mem_cons_of_mem a hc
      · exact hc
    by_cases hne : k' = k
    · subst hne
      refine happend hout (every_build hinner (hown a ?_ s.rest m hs hm))
      rw [bodies, if_pos rfl]
      exact List.mem_cons_self
    · exact happend hout (every_build_of_ne hk hne hinner)
  | wrap k' r a iha =>
    obtain ⟨m, hm, rfl⟩ := Option.map_eq_some_iff.mp h
    obtain ⟨hne, ha⟩ := Bool.and_eq_true_iff.mp ha
    refine every_build_of_ne hk (of_decide_eq_true hne) (happend ?_
      (iha ha hown (s := ⟨[], s.rest⟩) hs hnil hm))
    cases r with
    | none => exact hout
    | some r => exact every_mark hP hout
  | role r a iha =>
    obtain ⟨m, hm, rfl⟩ := Option.map_eq_some_iff.mp h
    exact happend hout (every_mark hP (iha ha hown (s := ⟨[], s.rest⟩) hs hnil hm))

/-- A rule that builds no node of kind `k` itself leaves those of the nonterminals. -/
theorem run_every {call : ν → List Token → Option State} (hk : IsBuilt k)
    (hP : ∀ t r, P t → P { t with role := r }) {ts : List Token} (hwhole : ∀ tok ∈ ts, tok.Whole)
    (hsuffix : ∀ n us s, call n us = some s → s.rest <:+ us)
    (hcall : ∀ n us s, us <:+ ts → call n us = some s → ∀ t ∈ s.out, t.Every k P)
    {a : Rule ν} (ha : a.avoids k = true) {s s' : State} (hs : s.rest <:+ ts)
    (hout : ∀ t ∈ s.out, t.Every k P) (h : run call a s = some s') :
    ∀ t ∈ s'.out, t.Every k P := by
  refine run_every_bodies hk hP hwhole hsuffix hcall (encloses_of_avoids ha) (fun b hb => ?_)
    hs hout h
  rw [bodies_of_avoids ha] at hb
  cases hb

end Every

end Rule

namespace Grammar

open Rule

/-- Where nodes of kind `k` are built on their own only, they come from what the rules build them
by. -/
theorem derive_every_bodies {k : Kind} {P : Tree → Prop} {ts : List Token} (hk : IsBuilt k)
    (hP : ∀ t r, P t → P { t with role := r }) (hencloses : ∀ n, (grammar n).encloses k = true)
    (hwhole : ∀ tok ∈ ts, tok.Whole)
    (hown : ∀ n, ∀ b ∈ (grammar n).bodies k, ∀ fuel us m, us <:+ ts →
      run (derive grammar fuel) b ⟨[], us⟩ = some m → ∀ t ∈ build k m.out, t.kind = k → P t)
    {fuel : Nat} {n : Nonterminal} {us : List Token} {s : State} (hus : us <:+ ts)
    (h : derive grammar fuel n us = some s) : ∀ t ∈ s.out, t.Every k P := by
  induction fuel generalizing n us s with
  | zero => cases h
  | succ fuel ih =>
    refine run_every_bodies hk hP hwhole (derive_suffix fuel) (fun m ws s hws hs => ih hws hs)
      (hencloses n) (fun b hb => hown n b hb fuel) hus ?_ h
    intro t ht
    cases ht

/-- Where one nonterminal alone builds nodes of kind `k`, all such nodes come from it. -/
theorem derive_every {k : Kind} {P : Tree → Prop} {n₀ : Nonterminal} {b : Production}
    {ts : List Token} (hk : IsBuilt k) (hP : ∀ t r, P t → P { t with role := r })
    (hrule : grammar n₀ = .node k b) (hb : b.avoids k = true)
    (havoids : ∀ n, n ≠ n₀ → (grammar n).avoids k = true) (hwhole : ∀ tok ∈ ts, tok.Whole)
    (hown : ∀ us s, us <:+ ts → derive grammar (nestingBound us) n₀ us = some s →
      ∀ t ∈ s.out, t.kind = k → P t)
    {fuel : Nat} {n : Nonterminal} {us : List Token} {s : State} (hus : us <:+ ts)
    (hfuel : 16 * us.length + rank n < fuel) (h : derive grammar fuel n us = some s) :
    ∀ t ∈ s.out, t.Every k P := by
  induction fuel generalizing n us s with
  | zero => cases h
  | succ fuel ih =>
    -- only the nonterminals matter that the rule can come to
    let call : Nonterminal → List Token → Option State := fun m ws =>
      if 16 * ws.length + rank m < fuel then derive grammar fuel m ws else none
    have hcongr : ∀ {a : Production} {m : State}, m.rest <:+ us →
        m.rest.length < us.length ∨ a.descends rank (rank n) = true →
        run (derive grammar fuel) a m = run call a m := by
      intro a m hm ha
      refine run_congr (derive_suffix fuel) (fun m ws hws hless => ?_) hm ha
      have hlen := hws.length_le
      have hrank := rank_lt m
      exact (if_pos (by omega)).symm
    have hsuffix : ∀ m ws s, call m ws = some s → s.rest <:+ ws := by
      intro m ws s hs
      simp only [call, Option.ite_none_right_eq_some] at hs
      exact derive_suffix _ _ _ _ hs.2
    have hcall : ∀ m ws s, ws <:+ ts → call m ws = some s → ∀ t ∈ s.out, t.Every k P := by
      intro m ws s hws hs
      simp only [call, Option.ite_none_right_eq_some] at hs
      exact ih hws hs.1 hs.2
    have hnil : ∀ t ∈ ([] : List Tree), t.Every k P := fun t ht => by cases ht
    have hrun : run call (grammar n) ⟨[], us⟩ = some s := by
      rw [← hcongr List.suffix_rfl (.inr (grammar_descends n))]
      exact h
    by_cases hn : n = n₀
    · subst hn
      rw [hrule] at hrun
      obtain ⟨m, hm, rfl⟩ := Option.map_eq_some_iff.mp hrun
      have hm' := run_every hk hP hwhole hsuffix hcall hb (s := ⟨[], us⟩) hus hnil hm
      have hbound : derive grammar (nestingBound us) n us = some ⟨[] ++ build k m.out, m.rest⟩ := by
        rw [← h]
        refine derive_stable rank_lt grammar_descends ?_ hfuel
        have := rank_lt n
        unfold nestingBound
        omega
      exact every_build hm' (hown us _ hus hbound)
    · exact run_every hk hP hwhole hsuffix hcall (havoids n hn) hus hnil hrun

end Grammar

open Rule Grammar

/-- What holds of all nodes of a kind that the rule of files leaves holds of those of the file. -/
theorem parse?_every {k : Kind} {P : Tree → Prop} (hk : IsBuilt k) (hfile : k ≠ .sourceFile)
    {src : Bytes} {root : Tree} (h : parse? src = some root)
    (hevery : ∀ s, derive grammar (nestingBound (Token.scan src)) .sourceFile
      (Token.scan src) = some s → ∀ t ∈ s.out, t.Every k P)
    {t : Tree} (ht : t ∈ root.walk) (htk : t.kind = k) : P t := by
  obtain ⟨s, hs, hrest⟩ := Option.bind_eq_some_iff.mp h
  simp only [Option.ite_none_right_eq_some, Option.some.injEq] at hrest
  obtain ⟨_, rfl⟩ := hrest
  -- a node of the file is below a node that the rule of files has left, or a comment after them
  obtain ⟨cs, hout, hcs, _⟩ := skipBlanks_tokens s.out s.rest
  rw [hout] at ht
  rcases Tree.mem_walk_iff.mp ht with rfl | ⟨c, hc, hn⟩
  · exact absurd htk.symm hfile
  · rcases List.mem_append.mp (List.mem_filter.mp hc).1 with hc | hc
    · exact hevery s hs c hc t hn htk
    · obtain ⟨tok, htok, rfl⟩ := List.mem_map.mp hc
      have hscan := (derive_suffix _ _ _ _ hs).subset (List.mem_filter.mp (hcs htok)).1
      exact every_tree hk (Token.scan_whole hscan) hk.comment.symm t hn htk

end CtxThread.Code
