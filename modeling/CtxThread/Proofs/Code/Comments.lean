import CtxThread.Proofs.Code.Cuts

/-!
# Inside of comments

A comment between a slash with a star and a star with a slash is closed by the first of these ends
behind its start. Text without stars that is put inside changes nothing about that.

## Main statements

- `Token.commentClose?_append_of_not_mem`, `Token.commentClose?_append_of_lt`: where a comment is
  closed if other text stands inside
- `Token.block_of_lineFeed`: a comment with a line end in it is such a comment
-/

namespace CtxThread.Code

namespace Token

/-! ## Where a comment is closed -/

/-- What holds no star closes no comment. -/
theorem commentClose?_append_of_not_mem {x : Bytes} (hstar : 0x2A ∉ x) (hnul : 0x00 ∉ x)
    (b : Bytes) : commentClose? (x ++ b) = (commentClose? b).map (· + x.length) := by
  induction x with
  | nil => simp
  | cons c x ih =>
    simp only [List.mem_cons, not_or] at hstar hnul
    rw [List.cons_append, commentClose?, if_neg (Ne.symm hnul.1),
      if_neg (by simp [Ne.symm hstar.1]),
      ih hstar.2 hnul.2, Option.map_map]
    rfl

/-- What does not close a comment, and does not end with a star either, leaves it to what comes
behind. -/
theorem commentClose?_append_of_lt {a b : Bytes} {n : Nat} (h : commentClose? (a ++ b) = some n)
    (hlen : a.length < n) (hlast : a.getLast? ≠ some 0x2A) (b' : Bytes) :
    commentClose? (a ++ b') = (commentClose? b').map (· + a.length) := by
  induction a generalizing n with
  | nil => simp
  | cons c a ih =>
    rw [List.cons_append, commentClose?] at h ⊢
    rw [List.length_cons] at hlen
    split at h
    · cases h
    · next hnul =>
      rw [if_neg hnul]
      split at h
      · next hclose =>
        -- the comment would be closed right here, by the last byte or before it
        obtain ⟨hstar, -⟩ := Bool.and_eq_true_iff.mp hclose
        obtain rfl := Option.some.inj h
        obtain rfl : a = [] := List.eq_nil_of_length_eq_zero (by omega)
        exact absurd (congrArg some (of_decide_eq_true hstar)) hlast
      · next hclose =>
        obtain ⟨m, hm, rfl⟩ := Option.map_eq_some_iff.mp h
        have hopen : ¬ (decide (c = 0x2A) && Number.opens (· = 0x2F) (a ++ b')) = true := by
          cases a with
          | nil =>
            have hne : c ≠ 0x2A := fun heq => hlast (congrArg some heq)
            simp [hne]
          | cons d a => exact hclose
        have hlast' : a.getLast? ≠ some 0x2A := by
          cases a with
          | nil => simp
          | cons d a => rwa [List.getLast?_cons_cons] at hlast
        rw [if_neg hopen, ih hm (by omega) hlast', Option.map_map]
        rfl

/-- A suffix that follows plain bytes is not closed either. -/
theorem commentClose?_eq_none_of_append {x b : Bytes} (hnul : 0x00 ∉ x)
    (h : commentClose? (x ++ b) = none) : commentClose? b = none := by
  induction x with
  | nil => exact h
  | cons c x ih =>
    simp only [List.mem_cons, not_or] at hnul
    rw [List.cons_append, commentClose?, if_neg (Ne.symm hnul.1)] at h
    split at h
    · cases h
    · exact ih hnul.2 (Option.map_eq_none_iff.mp h)

/-- Text without stars closes no comment that is not closed behind it. -/
theorem commentClose?_append_eq_none_of_not_mem {x b : Bytes} (hstar : 0x2A ∉ x)
    (h : commentClose? b = none) : commentClose? (x ++ b) = none := by
  induction x with
  | nil => exact h
  | cons c x ih =>
    simp only [List.mem_cons, not_or] at hstar
    rw [List.cons_append, commentClose?]
    split
    · rfl
    · rw [if_neg (by simp [Ne.symm hstar.1]), ih hstar.2]
      rfl

/-- A comment is closed by a slash. -/
theorem slash_of_commentClose? {r : Bytes} {n : Nat} (h : commentClose? r = some n) :
    ∃ k, n = k + 1 ∧ r[k]? = some 0x2F := by
  induction r generalizing n with
  | nil => cases h
  | cons c r ih =>
    rw [commentClose?] at h
    split at h
    · cases h
    · split at h
      · next hclose =>
        obtain rfl := Option.some.inj h
        obtain ⟨-, hslash⟩ := Bool.and_eq_true_iff.mp hclose
        cases r with
        | nil => cases hslash
        | cons d r => exact ⟨1, rfl, congrArg some (of_decide_eq_true hslash)⟩
      · obtain ⟨m, hm, rfl⟩ := Option.map_eq_some_iff.mp h
        obtain ⟨k, rfl, hk⟩ := ih hm
        exact ⟨k + 1, rfl, hk⟩

/-! ## Comments of a text -/

theorem comment?_of_next {src : Bytes} (h : (next src).lexeme = .comment) :
    comment? src = some (next src).length := by
  revert h
  unfold next
  split
  · exact fun h => nomatch h
  · split
    · next n hn => exact fun _ => hn
    · split
      · next s hs =>
        intro h
        obtain ⟨k, hk⟩ := exists_literal_of_quoted? hs
        rw [hk] at h
        cases h
      · split
        · exact fun h => nomatch h
        · split
          · exact fun h => absurd h (nameLexeme_ne _).1
          · split <;> exact fun h => nomatch h

/-- A token is what the text goes on with where it starts. -/
theorem eq_tokenAt_of_mem_scan {src : Bytes} {t : Token} (ht : t ∈ scan src) :
    t = tokenAt src t.start := by
  obtain ⟨us, vs, hsplit⟩ := List.append_of_mem ht
  have hsuffix : t :: vs <:+ scan src := ⟨us, hsplit.symm⟩
  have hscan := scan_suffix hsuffix
  have hlaid := (scan_stream src).laid_of_mem ht
  have hlt : t.start < src.length := hlaid.start_lt.trans_le hlaid.stop_le
  obtain ⟨n, hn⟩ := Nat.exists_eq_succ_of_ne_zero (Nat.sub_ne_zero_of_lt hlt)
  rw [scanAt, hn, scanFrom_drop hlt] at hscan
  split at hscan
  · have hmem : t ∈ scanFrom n (t.start + 1) (src.drop (t.start + 1)) :=
      hscan ▸ List.mem_cons_self
    have := le_start_of_mem hmem
    omega
  · exact (List.cons.inj hscan).1

/-- A comment with a line end in it is closed by a star and a slash. -/
theorem block_of_lineFeed {src : Bytes} {t : Token} (ht : t ∈ scan src) (hl : t.lexeme = .comment)
    {i : Nat} (hi : src[i]? = some Bytes.lineFeed) (hstart : t.start ≤ i) (hstop : i < t.stop) :
    src.drop t.start = 0x2F :: 0x2A :: src.drop (t.start + 2) ∧ t.start + 2 ≤ i ∧
      commentClose? (src.drop (t.start + 2)) = some (t.stop - (t.start + 2)) := by
  have htoken := eq_tokenAt_of_mem_scan ht
  have hlaid := (scan_stream src).laid_of_mem ht
  have hnext : (next (src.drop t.start)).lexeme = .comment := by
    rw [← hl]
    exact (congrArg Token.lexeme htoken).symm
  have hcomment := comment?_of_next hnext
  have hlen : t.stop = t.start + (next (src.drop t.start)).length := by
    rw [length_tokenAt (hlaid.start_lt.trans_le hlaid.stop_le), ← htoken]
    rfl
  have hget : (src.drop t.start)[i - t.start]? = some Bytes.lineFeed := by
    rw [List.getElem?_drop, Nat.add_sub_cancel' hstart, hi]
  rw [← List.drop_drop]
  generalize next (src.drop t.start) = s at hcomment hlen
  generalize src.drop t.start = u at hcomment hget ⊢
  obtain ⟨b, c, rest, rfl⟩ : ∃ b c rest, u = b :: c :: rest := by
    rcases u with - | ⟨b, - | ⟨c, rest⟩⟩
    · cases hcomment
    · cases hcomment
    · exact ⟨b, c, rest, rfl⟩
  simp only [comment?] at hcomment
  split at hcomment
  · next hline =>
    -- a comment to the end of a line stops in front of it
    exfalso
    obtain ⟨hb, hc⟩ := Bool.and_eq_true_iff.mp hline
    obtain rfl := of_decide_eq_true hb
    obtain rfl := of_decide_eq_true hc
    have hn := Option.some.inj hcomment
    have hfirst : i - t.start ≠ 0 := fun h0 => by rw [h0] at hget; cases hget
    have hsecond : i - t.start ≠ 1 := fun h1 => by rw [h1] at hget; cases hget
    obtain ⟨j, hj⟩ : ∃ j, i - t.start = j + 2 := ⟨i - t.start - 2, by omega⟩
    rw [hj, List.getElem?_cons_succ, List.getElem?_cons_succ] at hget
    have hjlt : j < (rest.takeWhile fun d => d ≠ Bytes.lineFeed && d ≠ 0x00).length := by
      omega
    have hprefix := List.takeWhile_prefix (fun d => d ≠ Bytes.lineFeed && d ≠ 0x00) (l := rest)
    rw [List.prefix_iff_getElem?.mp hprefix j hjlt] at hget
    have hmem := List.mem_takeWhile_imp (List.getElem_mem hjlt)
    rw [Option.some.inj hget] at hmem
    cases hmem
  · split at hcomment
    · next hblock =>
      obtain ⟨hb, hc⟩ := Bool.and_eq_true_iff.mp hblock
      obtain rfl := of_decide_eq_true hb
      obtain rfl := of_decide_eq_true hc
      obtain ⟨n, hn, hs⟩ := Option.map_eq_some_iff.mp hcomment
      have hfirst : i - t.start ≠ 0 := fun h0 => by rw [h0] at hget; cases hget
      have hsecond : i - t.start ≠ 1 := fun h1 => by rw [h1] at hget; cases hget
      refine ⟨rfl, by omega, ?_⟩
      rw [show t.stop - (t.start + 2) = n by omega]
      exact hn
    · cases hcomment

end Token

end CtxThread.Code
