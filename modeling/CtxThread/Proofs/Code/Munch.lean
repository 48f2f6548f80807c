import CtxThread.Proofs.Code.Front
import CtxThread.Proofs.Code.Numeral

/-!
# Where a token ends

How far a token goes is told by its own bytes and little of what comes behind it: the bytes that a
number or a sign could go on with, and for a slash whether it opens a comment. So a token stays as
it is when the text behind it is exchanged for one that makes no difference to it.

## Main definitions

- `Token.Follow`: two ways to go on that make no difference

## Main statements

- `Token.quoted?_append`: a literal between quotation marks does not depend on what follows
- `Token.nameLength_append`: a name ends where nothing follows that is part of one
- `Token.punctuation?_append`: a sign ends where nothing else follows that signs go on with
- `Token.Follow.next`: a token is the same in front of both ways to go on
-/

namespace CtxThread

/-! ## Runs of bytes -/

namespace Bytes

/-- A run that ends within a text ends there whatever comes behind. -/
theorem takeWhile_append_of_lt {q : UInt8 → Bool} {y : Bytes} (r r' : Bytes)
    (h : ((y ++ r).takeWhile q).length < y.length) :
    (y ++ r').takeWhile q = (y ++ r).takeWhile q := by
  induction y with
  | nil => cases h
  | cons b y ih =>
    rw [List.cons_append, List.cons_append]
    rw [List.cons_append] at h
    cases hb : q b with
    | false => simp [hb]
    | true =>
      rw [List.takeWhile_cons_of_pos hb, List.length_cons, List.length_cons] at h
      rw [List.takeWhile_cons_of_pos hb, List.takeWhile_cons_of_pos hb,
        ih (Nat.lt_of_succ_lt_succ h)]

/-- A run that ends with a text ends there if what comes behind cannot go on. -/
theorem length_takeWhile_append {q : UInt8 → Bool} {y r r' : Bytes}
    (h : ((y ++ r).takeWhile q).length = y.length) (hr' : ∀ c ∈ r'.head?, q c = false) :
    ((y ++ r').takeWhile q).length = y.length := by
  induction y with
  | nil =>
    cases r' with
    | nil => rfl
    | cons c t =>
      rw [List.nil_append, List.takeWhile_cons_of_neg (by simp [hr' c rfl])]
  | cons b y ih =>
    rw [List.cons_append] at h ⊢
    cases hb : q b with
    | false => simp [hb] at h
    | true =>
      rw [List.takeWhile_cons_of_pos hb, List.length_cons, List.length_cons] at h ⊢
      rw [ih (Nat.succ.inj h)]

theorem not_of_length_takeWhile {q : UInt8 → Bool} {y r : Bytes}
    (h : ((y ++ r).takeWhile q).length = y.length) : ∀ c ∈ r.head?, q c = false := by
  induction y with
  | nil =>
    cases r with
    | nil => simp
    | cons c r =>
      intro d hd
      obtain rfl : c = d := Option.some.inj hd
      by_contra hq
      rw [List.nil_append, List.takeWhile_cons_of_pos (by simpa using hq)] at h
      cases h
  | cons b y ih =>
    refine ih ?_
    rw [List.cons_append] at h
    cases hb : q b with
    | false => simp [hb] at h
    | true =>
      rw [List.takeWhile_cons_of_pos hb, List.length_cons, List.length_cons] at h
      exact Nat.succ.inj h

/-- The same for a run of a bounded length. -/
theorem takeWhile_take_append {q : UInt8 → Bool} {k : Nat} {y : Bytes} (r r' : Bytes)
    (h : k ≤ y.length ∨ (((y ++ r).take k).takeWhile q).length < y.length) :
    ((y ++ r').take k).takeWhile q = ((y ++ r).take k).takeWhile q := by
  by_cases hk : k ≤ y.length
  · rw [List.take_append_of_le_length hk, List.take_append_of_le_length hk]
  · have hlt := h.resolve_left hk
    rw [List.take_append, List.take_of_length_le (by omega)] at hlt ⊢
    have hsplit : (y ++ r).take k = y.take k ++ r.take (k - y.length) := List.take_append
    rw [hsplit, List.take_of_length_le (l := y) (by omega)]
    exact takeWhile_append_of_lt _ _ hlt

end Bytes

namespace Utf8

/-- A character does not depend on what comes behind it. -/
theorem first_append {b : UInt8} {s : Bytes} (r r' : Bytes)
    (h : (first b (s ++ r)).width ≤ s.length + 1)
    (hnone : (first b (s ++ r)).char = none → (first b (s ++ r)).width ≤ s.length) :
    first b (s ++ r') = first b (s ++ r) := by
  by_cases hb : b < 0x80
  · rw [first, first, if_pos hb, if_pos hb]
  rw [first, if_neg hb] at h hnone
  rw [first, first, if_neg hb, if_neg hb]
  cases hfollow : followers b with
  | none => rfl
  | some f =>
    obtain ⟨lo, hi, n⟩ := f
    have hn : 0 < n := by
      unfold followers at hfollow
      repeat' split at hfollow
      all_goals
        cases hfollow
      all_goals
        decide
    rw [hfollow] at h hnone
    cases s with
    | nil =>
      -- nothing of the character would be there
      cases r with
      | nil => exact absurd (hnone rfl) (by simp)
      | cons c more =>
        simp only [List.nil_append, List.length_nil] at h hnone
        split at h
        · next hc =>
          rw [if_pos hc] at hnone
          split at h
          · dsimp only at h; omega
          · dsimp only at h; omega
        · next hc =>
          rw [if_neg hc] at hnone
          exact absurd (hnone rfl) (by simp)
    | cons c s =>
      simp only [List.cons_append, List.length_cons] at h hnone ⊢
      by_cases hc : (decide (lo ≤ c) && decide (c ≤ hi)) = true
      · rw [if_pos hc] at h hnone
        rw [if_pos hc, if_pos hc]
        have htail : ((s ++ r').take (n - 1)).takeWhile isContinuation =
            ((s ++ r).take (n - 1)).takeWhile isContinuation := by
          refine Bytes.takeWhile_take_append r r' ?_
          split at h
          · dsimp only at h
            exact .inl (by omega)
          · next hlen =>
            rw [if_neg hlen] at hnone
            have := hnone rfl
            dsimp only at this
            exact .inr (by omega)
        rw [htail]
      · rw [if_neg hc, if_neg hc]

/-- A character takes no more bytes than there are. -/
theorem width_le {b : UInt8} {rest : Bytes} {c : Char} (h : (first b rest).char = some c) :
    (first b rest).width ≤ rest.length + 1 := by
  by_cases hb : b < 0x80
  · rw [first, if_pos hb]
    exact Nat.succ_le_succ (Nat.zero_le _)
  rw [first, if_neg hb] at h ⊢
  cases hfollow : followers b with
  | none => simp [hfollow] at h
  | some f =>
    obtain ⟨lo, hi, n⟩ := f
    rw [hfollow] at h
    cases rest with
    | nil => cases h
    | cons d more =>
      dsimp only at h ⊢
      split at h
      · next hd =>
        split at h
        · next htail =>
          have hle := (List.takeWhile_prefix isContinuation (l := more.take (n - 1))).length_le
          rw [htail, List.length_take] at hle
          rw [if_pos hd, if_pos htail, List.length_cons]
          dsimp only
          omega
        · cases h
      · cases h

end Utf8

namespace Code

theorem stretch_append_congr (y : Bytes) {r r' : Bytes} (h : stretch r = stretch r') :
    stretch (y ++ r) = stretch (y ++ r') := by
  induction y with
  | nil => exact h
  | cons b y ih => exact stretch_cons_congr b ih

/-! ## Comments -/

namespace Token

theorem commentClose?_append {u r : Bytes} (r' : Bytes)
    (h : commentClose? (u ++ r) = some u.length) : commentClose? (u ++ r') = some u.length := by
  have hpos : ∀ {s : Bytes} {n : Nat}, commentClose? s = some n → 2 ≤ n := by
    intro s
    induction s with
    | nil => exact fun h => nomatch h
    | cons b s ih =>
      intro n h
      rw [commentClose?] at h
      split at h
      · cases h
      · split at h
        · cases h
          exact Nat.le_refl 2
        · obtain ⟨m, hm, rfl⟩ := Option.map_eq_some_iff.mp h
          exact (ih hm).trans (Nat.le_succ m)
  induction u with
  | nil => exact absurd (hpos h) (by simp)
  | cons b u ih =>
    have htwo := hpos h
    obtain ⟨c, u', rfl⟩ : ∃ c u', u = c :: u' := by
      cases u with
      | nil => exact absurd htwo (by simp)
      | cons c u' => exact ⟨c, u', rfl⟩
    rw [List.cons_append, commentClose?] at h ⊢
    split at h
    · cases h
    · next hnul =>
      rw [if_neg hnul]
      by_cases hclose : (b = 0x2A && Number.opens (· = 0x2F) (c :: u' ++ r)) = true
      · rw [if_pos hclose] at h
        rw [← h]
        exact if_pos hclose
      · rw [if_neg hclose] at h
        obtain ⟨m, hm, hlen⟩ := Option.map_eq_some_iff.mp h
        obtain rfl : m = (c :: u').length := by simpa using hlen
        rw [ih hm]
        exact if_neg hclose

end Token

/-! ## Quoted literals -/

namespace Quoted

theorem take_append_congr {n : Nat} {z : Bytes} (r r' : Bytes) (h : n ≤ z.length) :
    (z ++ r').take n = (z ++ r).take n := by
  rw [List.take_append_of_le_length h, List.take_append_of_le_length h]

theorem hexes_append {n : Nat} {z : Bytes} (r r' : Bytes) (h : n ≤ z.length) :
    hexes n (z ++ r') = hexes n (z ++ r) := by
  rw [hexes, hexes, take_append_congr r r' h]

theorem charWidth_append {z : Bytes} (r r' : Bytes) (h : charWidth (z ++ r) < z.length) :
    charWidth (z ++ r') = charWidth (z ++ r) := by
  cases z with
  | nil => cases h
  | cons b z =>
    simp only [List.cons_append, charWidth, List.length_cons] at h ⊢
    rw [Utf8.first_append r r' (by omega) fun _ => by omega]

theorem escape?_pos {src : Bytes} {n : Nat} (h : escape? src = some n) : 0 < n := by
  unfold escape? at h
  dsimp only at h
  repeat' split at h
  all_goals
    cases h
  all_goals
    omega

/-- An escape sequence inside a literal does not depend on what comes behind the literal. -/
theorem escape?_append {z r : Bytes} (r' : Bytes) {n : Nat} (h : escape? (z ++ r) = some n)
    (hn : n ≤ z.length) : escape? (z ++ r') = some n := by
  cases z with
  | nil => exact absurd ((escape?_pos h).trans_le hn) (by simp)
  | cons b z =>
    rw [← h]
    simp only [List.cons_append, escape?, List.length_cons] at h hn ⊢
    split
    · rfl
    · next h0 =>
      rw [if_neg h0] at h
      split
      · next hx =>
        rw [if_pos hx] at h
        split at h
        · cases h
          rw [Bytes.takeWhile_append_of_lt r r' (by omega)]
        · cases h
      · next hx =>
        rw [if_neg hx] at h
        split
        · next hu =>
          rw [if_pos hu] at h
          split at h
          · cases h
            rw [hexes_append r r' (by omega)]
          · cases h
        · next hu =>
          rw [if_neg hu] at h
          split
          · next hU =>
            rw [if_pos hU] at h
            split at h
            · cases h
              rw [hexes_append r r' (by omega)]
            · cases h
          · next hU =>
            rw [if_neg hU] at h
            split
            · next hd =>
              rw [if_pos hd] at h
              cases h
              have hlt : (((b :: z ++ r).take 3).takeWhile Number.isDecimal).length <
                  (b :: z).length := by
                rw [List.length_cons, List.cons_append]
                omega
              rw [← List.cons_append, ← List.cons_append,
                Bytes.takeWhile_take_append r r' (.inr hlt)]
            · next hd =>
              rw [if_neg hd] at h
              cases h
              have hlt : charWidth (b :: z ++ r) < (b :: z).length := by
                rw [List.length_cons, List.cons_append]
                omega
              rw [← List.cons_append, ← List.cons_append, charWidth_append r r' hlt]

/-- A string literal does not depend on what comes behind it. -/
theorem parts?_append {fuel : Nat} {y r : Bytes} (r' : Bytes) {ps : List (Kind × Nat)}
    (h : parts? fuel (y ++ r) = some ps) (hlen : y.length = total ps + 1) {fuel' : Nat}
    (hfuel : y.length ≤ fuel') : parts? fuel' (y ++ r') = some ps := by
  induction fuel generalizing y ps fuel' with
  | zero => cases h
  | succ fuel ih =>
    obtain ⟨b, z, rfl⟩ := List.exists_cons_of_length_eq_add_one hlen
    obtain ⟨fuel', rfl⟩ := Nat.exists_eq_add_of_le' (Nat.one_le_of_lt (Nat.lt_of_lt_of_le
      (Nat.succ_pos z.length) hfuel))
    rw [List.length_cons] at hlen hfuel
    simp only [List.cons_append, parts?] at h ⊢
    split at h
    · next hq =>
      rw [if_pos hq]
      exact h
    · next hq =>
      rw [if_neg hq]
      split at h
      · next hb =>
        rw [if_pos hb]
        obtain ⟨n, hn, h⟩ := Option.bind_eq_some_iff.mp h
        obtain ⟨qs, hqs, rfl⟩ := Option.map_eq_some_iff.mp h
        have hpos := escape?_pos hn
        rw [total_cons] at hlen
        dsimp only at hlen
        rw [escape?_append r' hn (by omega), Option.bind_some]
        rw [List.drop_append_of_le_length (by omega)] at hqs ⊢
        rw [ih hqs (by rw [List.length_drop]; omega) (by rw [List.length_drop]; omega)]
        rfl
      · next hb =>
        rw [if_neg hb]
        split at h
        · next ho =>
          rw [if_pos ho]
          obtain ⟨qs, hqs, rfl⟩ := Option.map_eq_some_iff.mp h
          rw [total_cons] at hlen
          dsimp only at hlen
          rw [Bytes.takeWhile_append_of_lt r r' (by omega)]
          rw [List.drop_append_of_le_length (by omega)] at hqs ⊢
          rw [ih hqs (by rw [List.length_drop]; omega) (by rw [List.length_drop]; omega)]
          rfl
        · cases h

theorem raw?_append {z r : Bytes} (r' : Bytes) {n : Nat} (h : raw? (z ++ r) = some n)
    (hlen : n + 1 ≤ z.length) : raw? (z ++ r') = some n := by
  simp only [raw?] at h ⊢
  split at h
  · next hq =>
    cases h
    rw [Bytes.takeWhile_append_of_lt r r' (by omega)]
    rw [List.drop_append_of_le_length (by omega)] at hq ⊢
    rw [if_pos]
    cases hz : z.drop ((z ++ r).takeWhile fun b => b ≠ backQuote && b ≠ 0x00).length with
    | nil =>
      have := congrArg List.length hz
      rw [List.length_drop, List.length_nil] at this
      omega
    | cons c t =>
      rw [hz] at hq
      exact hq
  · cases h

/-- The length of an escape sequence of a rune literal, given what follows its backslash. -/
def runeEscape? (rest : Bytes) : Option Nat :=
  match rest with
  | [] => none
  | c :: more =>
    if runeEscapes.contains c then some 2
    else if c = 0x78 then if hexes 2 more then some 4 else none
    else if c = 0x75 then if hexes 4 more then some 6 else none
    else if c = 0x55 then if hexes 8 more then some 10 else none
    else if (rest.take 3).length = 3 && (rest.take 3).all Number.isOctal then some 4
    else none

theorem runeBody?_cons (b : UInt8) (rest : Bytes) :
    runeBody? (b :: rest) =
      if b = singleQuote || b = 0x00 then none
      else if b ≠ backslash then some (charWidth (b :: rest))
      else runeEscape? rest :=
  rfl

theorem runeEscape?_append {z r : Bytes} (r' : Bytes) {m : Nat}
    (h : runeEscape? (z ++ r) = some m) (hlen : m ≤ z.length) :
    runeEscape? (z ++ r') = some m := by
  cases z with
  | nil =>
    obtain rfl : m = 0 := Nat.le_zero.mp hlen
    unfold runeEscape? at h
    repeat' split at h
    all_goals
      cases h
  | cons c z =>
    have hcode : ∀ {k n : Nat}, n ≤ z.length + 1 → k < n →
        (if hexes k (z ++ r) then some n else none) = some m →
        (if hexes k (z ++ r') then some n else none) = some m := by
      intro k n hn hk h
      rw [hexes_append r r' (by omega)]
      exact h
    have hbound : ∀ {k n : Nat}, (if hexes k (z ++ r) then some n else none) = some m → n = m := by
      intro k n h
      split at h
      · exact Option.some.inj h
      · cases h
    simp only [List.cons_append, runeEscape?, List.length_cons] at h hlen ⊢
    split at h
    · next hc => rw [if_pos hc, h]
    · next hc =>
      rw [if_neg hc]
      split at h
      · next hx => rw [if_pos hx, hcode (hbound h ▸ hlen) (by decide) h]
      · next hx =>
        rw [if_neg hx]
        split at h
        · next hu => rw [if_pos hu, hcode (hbound h ▸ hlen) (by decide) h]
        · next hu =>
          rw [if_neg hu]
          split at h
          · next hU => rw [if_pos hU, hcode (hbound h ▸ hlen) (by decide) h]
          · next hU =>
            rw [if_neg hU]
            split at h
            · next hoctal =>
              obtain rfl := Option.some.inj h
              have htake := take_append_congr (n := 3) (z := c :: z) r r' (by
                rw [List.length_cons]; omega)
              rw [List.cons_append, List.cons_append] at htake
              exact if_pos (by simpa only [htake] using hoctal)
            · cases h

theorem rune?_append {z r : Bytes} (r' : Bytes) {n : Nat} (h : rune? (z ++ r) = some n)
    (hlen : n = z.length + 1) : rune? (z ++ r') = some n := by
  obtain ⟨m, hm, hclose⟩ := Option.bind_eq_some_iff.mp h
  split at hclose
  · next hquote =>
    cases hclose
    have hlt : m < z.length := by omega
    have hquote' : Number.opens (· = singleQuote) ((z ++ r').drop m) = true := by
      rw [List.drop_append_of_le_length hlt.le] at hquote ⊢
      cases hz : z.drop m with
      | nil =>
        have := congrArg List.length hz
        rw [List.length_drop, List.length_nil] at this
        omega
      | cons c t =>
        rw [hz] at hquote
        exact hquote
    have hbody : runeBody? (z ++ r') = some m := by
      cases z with
      | nil => cases hlt
      | cons b z =>
        rw [List.cons_append, runeBody?_cons] at hm ⊢
        split at hm
        · cases hm
        · next h0 =>
          rw [if_neg h0]
          split at hm
          · next hb =>
            rw [if_pos hb, ← hm]
            exact congrArg some (charWidth_append (z := b :: z) r r' (by
              rw [Option.some.injEq] at hm; exact hm ▸ hlt))
          · next hb =>
            rw [if_neg hb]
            exact runeEscape?_append r' hm (by rw [List.length_cons] at hlt; omega)
    rw [rune?, hbody, Option.bind_some, if_pos hquote']
  · cases hclose

end Quoted

namespace Token

/-- A literal between quotation marks does not depend on what comes behind it. -/
theorem quoted?_append {x r : Bytes} (r' : Bytes) {s : Shape} (h : quoted? (x ++ r) = some s)
    (hlen : s.length = x.length) : quoted? (x ++ r') = some s := by
  cases x with
  | nil =>
    have hpos := (quoted?_fits h).pos
    rw [hlen] at hpos
    cases hpos
  | cons b y =>
    simp only [List.cons_append, quoted?] at h ⊢
    split at h
    · next hb =>
      obtain ⟨ps, hps, rfl⟩ := Option.map_eq_some_iff.mp h
      have htotal : y.length = Quoted.total ps + 1 := by
        have : 2 + Quoted.total ps = y.length + 1 := hlen
        omega
      rw [if_pos hb, Quoted.parts?_append r' hps htotal (by
        rw [List.length_cons, List.length_append]; omega)]
      rfl
    · next hb =>
      rw [if_neg hb]
      split at h
      · next hb =>
        obtain ⟨n, hn, rfl⟩ := Option.map_eq_some_iff.mp h
        have hraw : 2 + n = y.length + 1 := hlen
        rw [if_pos hb, Quoted.raw?_append r' hn (by omega)]
        rfl
      · next hb =>
        rw [if_neg hb]
        split at h
        · next hb =>
          obtain ⟨n, hn, rfl⟩ := Option.map_eq_some_iff.mp h
          have hrune : n = y.length + 1 := hlen
          rw [if_pos hb, Quoted.rune?_append r' hn hrune]
          rfl
        · cases h

/-! ## Names -/

theorem le_spanChars {p : Char → Bool} {skip : Nat} {src : Bytes} (h : skip ≤ src.length) :
    skip ≤ spanChars p skip src := by
  induction src generalizing skip with
  | nil => exact Nat.le_trans h (Nat.zero_le _)
  | cons b src ih =>
    cases skip with
    | zero => exact Nat.zero_le _
    | succ skip =>
      have := ih (Nat.le_of_succ_le_succ h)
      rw [spanChars]
      omega

/-- A character within a span does not depend on what comes behind the span. -/
theorem first_append_of_spanChars {p : Char → Bool} {b : UInt8} {y r : Bytes} (r' : Bytes)
    (h : spanChars p 0 (b :: (y ++ r)) = y.length + 1) :
    Utf8.first b (y ++ r') = Utf8.first b (y ++ r) ∧ ∃ c, (Utf8.first b (y ++ r)).char = some c ∧
      p c = true ∧ (Utf8.first b (y ++ r)).width - 1 ≤ y.length ∧
      spanChars p ((Utf8.first b (y ++ r)).width - 1) (y ++ r) = y.length := by
  simp only [spanChars] at h
  cases hchar : (Utf8.first b (y ++ r)).char with
  | none =>
    rw [hchar] at h
    cases h
  | some c =>
    rw [hchar] at h
    dsimp only at h
    split at h
    · next hc =>
      have hwidth := Utf8.width_le hchar
      have hle := le_spanChars (p := p) (show (Utf8.first b (y ++ r)).width - 1 ≤
        (y ++ r).length by omega)
      have hfirst := Utf8.first_append (b := b) (s := y) r r' (by omega) (by simp [hchar])
      exact ⟨hfirst, c, rfl, hc, by omega, by omega⟩
    · cases h

/-- Characters of a class span the same bytes if what comes behind does not go on with one. -/
theorem spanChars_append_congr {p : Char → Bool} {skip : Nat} {x r r' : Bytes}
    (h : spanChars p skip (x ++ r) = x.length) (hskip : skip ≤ x.length)
    (hr' : spanChars p 0 r' = 0) : spanChars p skip (x ++ r') = x.length := by
  induction x generalizing skip with
  | nil =>
    obtain rfl : skip = 0 := Nat.le_zero.mp hskip
    exact hr'
  | cons b x ih =>
    rw [List.length_cons] at hskip
    rw [List.cons_append, List.length_cons] at h ⊢
    cases skip with
    | succ skip =>
      rw [spanChars] at h ⊢
      rw [ih (by omega) (by omega), Nat.add_comm]
    | zero =>
      obtain ⟨hfirst, c, hchar, hc, hle, hspan⟩ := first_append_of_spanChars r' h
      simp only [spanChars]
      rw [hfirst, hchar]
      dsimp only
      rw [if_pos hc, ih hspan hle, Nat.add_comm]

/-- Where a span ends, it does not go on. -/
theorem spanChars_eq_zero {p : Char → Bool} {skip : Nat} {x r : Bytes}
    (h : spanChars p skip (x ++ r) = x.length) (hskip : skip ≤ x.length) :
    spanChars p 0 r = 0 := by
  induction x generalizing skip with
  | nil =>
    obtain rfl : skip = 0 := Nat.le_zero.mp hskip
    exact h
  | cons b x ih =>
    rw [List.length_cons] at hskip
    rw [List.cons_append, List.length_cons] at h
    cases skip with
    | succ skip =>
      rw [spanChars] at h
      exact ih (show spanChars p skip (x ++ r) = x.length by omega) (by omega)
    | zero =>
      obtain ⟨-, c, -, -, hle, hspan⟩ := first_append_of_spanChars r h
      exact ih hspan hle

theorem spanChars_of_nameLength {src : Bytes} (h : nameLength src ≠ 0) :
    spanChars isNamePart 0 src = nameLength src := by
  cases src with
  | nil => exact absurd rfl h
  | cons b rest =>
    simp only [nameLength] at h ⊢
    cases hchar : (Utf8.first b rest).char with
    | none => simp [hchar] at h
    | some c =>
      rw [hchar] at h
      dsimp only at h ⊢
      split at h
      · next hc => rw [if_pos hc]
      · exact absurd rfl h

/-- A name ends where nothing follows that is part of one. -/
theorem nameLength_append {x r r' : Bytes} (h : nameLength (x ++ r) = x.length) (hx : x ≠ [])
    (hr' : spanChars isNamePart 0 r' = 0) : nameLength (x ++ r') = x.length := by
  obtain ⟨b, y, rfl⟩ := List.exists_cons_of_ne_nil hx
  simp only [List.cons_append, nameLength, List.length_cons] at h ⊢
  cases hchar : (Utf8.first b (y ++ r)).char with
  | none =>
    rw [hchar] at h
    cases h
  | some c =>
    rw [hchar] at h
    dsimp only at h
    split at h
    · next hc =>
      obtain ⟨hfirst, -⟩ := first_append_of_spanChars r' h
      rw [hfirst, hchar]
      dsimp only
      rw [if_pos hc]
      exact spanChars_append_congr (x := b :: y) h (Nat.zero_le _) hr'
    · cases h

/-! ## Signs -/

/-- Behind its first byte a sign is made of bytes that a sign can go on with, and no name starts
with this first byte. -/
theorem punctuation_running : ∀ e ∈ Sign.punctuation,
    (∀ c ∈ (Bytes.ofString e.1).tail, isRunning c = true) ∧
      ∀ b ∈ (Bytes.ofString e.1).head?, b < 0x80 ∧ isNameStart (Char.ofNat b.toNat) = false := by
  have h : ∀ e ∈ Sign.punctuation, (Bytes.ofString e.1).tail.all isRunning = true ∧
      ((Bytes.ofString e.1).head?.all fun b =>
        decide (b < 0x80) && !isNameStart (Char.ofNat b.toNat)) = true := by
    decide +kernel
  intro e he
  obtain ⟨htail, hhead⟩ := h e he
  refine ⟨List.all_eq_true.mp htail, fun b hb => ?_⟩
  rw [hb] at hhead
  simpa using hhead

/-- What goes on alike is opened by the same signs. -/
theorem isPrefixOf_append_congr {x r r' w : Bytes} (hx : x ≠ [])
    (hw : ∀ c ∈ w.tail, isRunning c = true) (hrun : stretch r = stretch r')
    (h : w.isPrefixOf (x ++ r) = true) : w.isPrefixOf (x ++ r') = true := by
  rw [List.isPrefixOf_iff_prefix] at h ⊢
  by_cases hlen : w.length ≤ x.length
  · exact (List.prefix_of_prefix_length_le h (List.prefix_append x r) hlen).trans
      (List.prefix_append x r')
  · obtain ⟨y, rfl⟩ := List.prefix_of_prefix_length_le (List.prefix_append x r) h (by omega)
    rw [List.prefix_append_right_inj] at h ⊢
    have hy : ∀ c ∈ y, isRunning c = true := by
      intro c hc
      refine hw c ?_
      rw [List.tail_append_of_ne_nil hx]
      exact List.mem_append_right _ hc
    obtain ⟨t, rfl⟩ := h
    have hrun' : y ++ stretch t = stretch r' := by
      rw [← hrun]
      exact (List.takeWhile_append_of_pos hy).symm
    exact (List.prefix_append y (stretch t)).trans (hrun' ▸ List.takeWhile_prefix isRunning)

/-- A sign does not go on with what comes behind it if that does not go on in another way. -/
theorem punctuation?_append {x r r' : Bytes} (hx : x ≠ []) (hrun : stretch r = stretch r') :
    punctuation? (x ++ r') = punctuation? (x ++ r) := by
  have hsame : Sign.punctuation.filter (fun e => (Bytes.ofString e.1).isPrefixOf (x ++ r')) =
      Sign.punctuation.filter fun e => (Bytes.ofString e.1).isPrefixOf (x ++ r) := by
    refine List.filter_congr fun e he => ?_
    have hw := (punctuation_running e he).1
    rw [Bool.eq_iff_iff]
    exact ⟨isPrefixOf_append_congr hx hw hrun.symm, isPrefixOf_append_congr hx hw hrun⟩
  rw [punctuation?, punctuation?, ← List.head?_filter, ← List.head?_filter, hsame]

/-! ## What may follow -/

/-- Two ways to go on behind a token that make no difference to it. -/
structure Follow (r r' : Bytes) : Prop where
  stretch_eq : stretch r = stretch r'
  head : r'.head? = r.head? ∨ r'.head? = some Bytes.lineFeed
  base : ∀ c t, r = c :: t → Number.isBase c = true → ∃ t', r' = c :: t' ∧ stretch t = stretch t'
  star : ∀ t, r = 0x2A :: t →
    ∃ t', r' = 0x2A :: t' ∧ (commentClose? t = none → commentClose? t' = none)
  name : ∀ c t, r = c :: t → 0x80 ≤ c → (next r).lexeme ≠ .stray

section Follow

variable {r r' : Bytes} (h : Follow r r')

include h

theorem Follow.longest? {x : Bytes} (hx : x ≠ []) :
    Number.longest? (x ++ r') = Number.longest? (x ++ r) := by
  suffices hreach : Number.reach (x ++ r') = Number.reach (x ++ r) by
    rw [← Number.longest?_reach, hreach, Number.longest?_reach]
  have hrun : ∀ y : Bytes, stretch (y ++ r') = stretch (y ++ r) := fun y =>
    stretch_append_congr y h.stretch_eq.symm
  match x, hx with
  | b :: c :: y, _ =>
    simp only [List.cons_append, Number.reach]
    rw [hrun y, ← List.cons_append, ← List.cons_append, hrun, List.cons_append, List.cons_append]
  | [b], _ =>
    rcases Number.reach_cases ([b] ++ r) with ⟨c, t, heq, hc, hreach⟩ | ⟨hreach, hnot⟩
    · obtain ⟨rfl, rfl⟩ := List.cons.inj heq
      obtain ⟨t', rfl, ht⟩ := h.base c t rfl hc
      rw [hreach, ht]
      exact if_pos (by simp [hc])
    · rcases Number.reach_cases ([b] ++ r') with ⟨c, t, heq, hc, -⟩ | ⟨hreach', -⟩
      · obtain ⟨rfl, rfl⟩ := List.cons.inj heq
        rcases h.head with hhead | hhead
        · obtain ⟨t', rfl⟩ := List.head?_eq_some_iff.mp hhead.symm
          rw [hnot c t' rfl] at hc
          cases hc
        · obtain rfl : c = Bytes.lineFeed := Option.some.inj hhead
          cases hc
      · rw [hreach, hreach', hrun]

omit h in
/-- A text that opens with neither an ASCII character nor a stray byte opens with a name. -/
theorem spanChars_pos_of_ge {c : UInt8} {t : Bytes} (hc : 0x80 ≤ c)
    (hstray : (next (c :: t)).lexeme ≠ .stray) : 0 < spanChars isNamePart 0 (c :: t) := by
  have hascii : ∀ {b : UInt8}, b < 0x80 → c ≠ b := by
    rintro b hb rfl
    exact absurd hb (UInt8.not_lt.mpr hc)
  have hfrank : isFrank c = true := by
    have hdecimal : Number.isDecimal c = false := by
      have h39 : ¬ c ≤ 0x39 := fun hle => absurd (UInt8.le_trans hc hle) (by decide)
      simp [Number.isDecimal, h39]
    simp [isFrank, hdecimal, hascii (b := Bytes.lineFeed) (by decide),
      hascii (b := 0x2F) (by decide), hascii (b := Quoted.doubleQuote) (by decide),
      hascii (b := Quoted.backQuote) (by decide), hascii (b := Quoted.singleQuote) (by decide),
      hascii (b := 0x2E) (by decide)]
  have hsign : punctuation? (c :: t) = none := by
    rw [punctuation?, Option.map_eq_none_iff, List.find?_eq_none]
    intro e he hprefix
    have hpos := (punctuation_spelling e he).1
    have hhead := (punctuation_running e he).2
    cases hw : Bytes.ofString e.1 with
    | nil => rw [hw] at hpos; cases hpos
    | cons b w =>
      rw [hw, List.isPrefixOf_iff_prefix, List.cons_prefix_cons] at hprefix
      rw [hw] at hhead
      exact hascii (hhead b rfl).1 hprefix.1.symm
  rw [next_of_isFrank hfrank, hsign] at hstray
  have hname : nameLength (c :: t) ≠ 0 := by
    intro h0
    rw [if_neg (by simp [h0])] at hstray
    exact hstray rfl
  simp only [nameLength] at hname
  cases hchar : (Utf8.first c t).char with
  | none => simp [hchar] at hname
  | some d =>
    rw [hchar] at hname
    dsimp only at hname
    split at hname
    · exact Nat.pos_of_ne_zero hname
    · exact absurd rfl hname

/-- No name goes on. -/
theorem Follow.spanChars (hr : spanChars isNamePart 0 r = 0) :
    Token.spanChars isNamePart 0 r' = 0 := by
  have hascii : ∀ {c : UInt8} {t : Bytes}, c < 0x80 → (Token.spanChars isNamePart 0 (c :: t) = 0 ↔
      isNamePart (Char.ofNat c.toNat) = false) := by
    intro c t hc
    have hfirst : Utf8.first c t = ⟨some (Char.ofNat c.toNat), 1⟩ := by rw [Utf8.first, if_pos hc]
    simp only [Token.spanChars, hfirst]
    split <;> simp_all
  cases r' with
  | nil => rfl
  | cons c t' =>
    rcases h.head with hhead | hhead
    · obtain ⟨t, rfl⟩ := List.head?_eq_some_iff.mp hhead.symm
      by_cases hc : c < 0x80
      · rw [hascii hc] at hr ⊢
        exact hr
      · have hge : 0x80 ≤ c := UInt8.not_lt.mp hc
        have hpos := spanChars_pos_of_ge hge (h.name c t rfl hge)
        omega
    · obtain rfl : c = Bytes.lineFeed := Option.some.inj hhead
      exact (hascii (by decide)).mpr (by decide +kernel)

omit h in
theorem next_of_slash_star {t : Bytes} (h : commentClose? t = none) :
    next (0x2F :: 0x2A :: t) = ⟨.sign .slash, 1, []⟩ := by
  have hcomment : comment? (0x2F :: 0x2A :: t) = none := by
    rw [comment?, h]
    rfl
  rw [next, hcomment, Number.longest?_eq_none (by decide) (by decide)]
  rfl

theorem Follow.comment?_eq_none {x : Bytes} (hx : x ≠ [])
    (hlen : (next (x ++ r)).length = x.length) (hnone : comment? (x ++ r) = none) :
    comment? (x ++ r') = none := by
  have hother : ∀ {b : UInt8} (s : Bytes), b ≠ 0x2F → comment? (b :: s) = none := by
    intro b s hb
    cases s with
    | nil => rfl
    | cons c s => simp [comment?, hb]
  obtain ⟨b, y, rfl⟩ := List.exists_cons_of_ne_nil hx
  by_cases hb : b = 0x2F
  · subst hb
    have hslash : ∀ {c : UInt8} {t : Bytes}, comment? (0x2F :: c :: t) = none →
        c ≠ 0x2F ∧ (c = 0x2A → commentClose? t = none) := by
      intro c t hct
      constructor
      · rintro rfl
        cases hct
      · rintro rfl
        exact Option.map_eq_none_iff.mp hct
    cases y with
    | nil =>
      cases r' with
      | nil => rfl
      | cons c t' =>
        rcases h.head with hhead | hhead
        · obtain ⟨t, rfl⟩ := List.head?_eq_some_iff.mp hhead.symm
          obtain ⟨hne, hclose⟩ := hslash hnone
          by_cases hc : c = 0x2A
          · subst hc
            obtain ⟨t'', heq, hstar⟩ := h.star t rfl
            obtain rfl := (List.cons.inj heq).2
            exact Option.map_eq_none_iff.mpr (hstar (hclose rfl))
          · simp [comment?, hne, hc]
        · obtain rfl : c = Bytes.lineFeed := Option.some.inj hhead
          rfl
    | cons c y =>
      obtain ⟨hne, hclose⟩ := hslash hnone
      by_cases hc : c = 0x2A
      · subst hc
        have hnext : next (0x2F :: 0x2A :: y ++ r) = ⟨.sign .slash, 1, []⟩ :=
          next_of_slash_star (hclose rfl)
        rw [hnext] at hlen
        simp at hlen
      · simp [comment?, hne, hc]
  · exact hother _ hb

theorem Follow.comment? {x : Bytes} (hcomment : comment? (x ++ r) = some x.length) :
    Token.comment? (x ++ r') = some x.length := by
  have htwo : 2 ≤ x.length := by
    revert hcomment
    generalize x.length = n
    intro hcomment
    unfold Token.comment? at hcomment
    repeat' split at hcomment
    · rw [← Option.some.inj hcomment]
      exact Nat.le_add_right 2 _
    · obtain ⟨m, -, rfl⟩ := Option.map_eq_some_iff.mp hcomment
      exact Nat.le_add_right 2 m
    · cases hcomment
    · cases hcomment
  match x, htwo with
  | b :: c :: y, _ =>
    simp only [List.cons_append, Token.comment?, List.length_cons] at hcomment ⊢
    split at hcomment
    · next hline =>
      have hlen : ((y ++ r).takeWhile fun d => d ≠ Bytes.lineFeed && d ≠ 0x00).length =
          y.length := by
        have := Option.some.inj hcomment
        omega
      rw [if_pos hline, Bytes.length_takeWhile_append hlen, Nat.add_comm]
      -- what comes behind ends the line as it did before
      intro c hc
      rcases h.head with hhead | hhead
      · exact Bytes.not_of_length_takeWhile hlen c (hhead ▸ hc)
      · obtain rfl : c = Bytes.lineFeed := Option.some.inj (hc.symm.trans hhead)
        rfl
    · next hline =>
      rw [if_neg hline]
      split at hcomment
      · next hblock =>
        obtain ⟨m, hm, hlen⟩ := Option.map_eq_some_iff.mp hcomment
        obtain rfl : m = y.length := by omega
        rw [if_pos hblock, commentClose?_append r' hm]
        exact congrArg some (Nat.add_comm 2 _)
      · cases hcomment

omit h in
/-- A quotation mark that nothing closes belongs to no token. -/
theorem next_of_mark {b : UInt8} {t : Bytes}
    (hb : b = Quoted.doubleQuote ∨ b = Quoted.backQuote ∨ b = Quoted.singleQuote)
    (hnone : quoted? (b :: t) = none) : (Token.next (b :: t)).lexeme = .stray := by
  have hcomment : Token.comment? (b :: t) = none := by
    rcases hb with rfl | rfl | rfl <;> cases t <;> rfl
  have hnumber : Number.longest? (b :: t) = none := by
    rcases hb with rfl | rfl | rfl <;> exact Number.longest?_eq_none (by decide) (by decide) t
  rw [Token.next, hcomment, hnone, hnumber]
  rcases hb with rfl | rfl | rfl <;> rfl

omit h in
theorem quoted?_eq_none {b : UInt8} (hb : ¬ (b = Quoted.doubleQuote ∨ b = Quoted.backQuote ∨
    b = Quoted.singleQuote)) (t : Bytes) : quoted? (b :: t) = none := by
  simp only [not_or] at hb
  simp [quoted?, hb]

omit h in
theorem next_of_none {src : Bytes} (hopens : Number.opens (· = Bytes.lineFeed) src = false)
    (hcomment : Token.comment? src = none) (hquoted : quoted? src = none)
    (hnumber : Number.longest? src = none) :
    Token.next src =
      if nameLength src ≠ 0 then
        ⟨nameLexeme (src.take (nameLength src)), nameLength src, []⟩
      else if let some (s, n) := punctuation? src then ⟨.sign s, n, []⟩
      else ⟨.stray, 1, []⟩ := by
  rw [Token.next, hopens, hcomment, hquoted, hnumber]
  rfl

omit h in
/-- No name starts like a sign. -/
theorem nameLength_of_sign {b : UInt8} {t : Bytes} {g : Sign × Nat}
    (hsign : punctuation? (b :: t) = some g) (t' : Bytes) : nameLength (b :: t') = 0 := by
  obtain ⟨e, he, -⟩ := Option.map_eq_some_iff.mp hsign
  have hmem := List.mem_of_find?_eq_some he
  have hpos := (punctuation_spelling e hmem).1
  have hhead := (punctuation_running e hmem).2
  have hprefix := List.find?_some he
  cases hw : Bytes.ofString e.1 with
  | nil => rw [hw] at hpos; cases hpos
  | cons c w =>
    rw [hw, List.isPrefixOf_iff_prefix, List.cons_prefix_cons] at hprefix
    obtain ⟨rfl, -⟩ := hprefix
    rw [hw] at hhead
    obtain ⟨hascii, hstart⟩ := hhead c rfl
    simp [nameLength, Utf8.first, hascii, hstart]

/-- A token does not depend on what comes behind it, where both texts go on in a way that makes no
difference. -/
theorem Follow.next {x : Bytes} (hx : x ≠ []) (hlen : (next (x ++ r)).length = x.length)
    (hnewline : (Token.next (x ++ r)).lexeme ≠ .newline)
    (hstray : (Token.next (x ++ r)).lexeme ≠ .stray) :
    Token.next (x ++ r') = Token.next (x ++ r) := by
  obtain ⟨b, y, rfl⟩ := List.exists_cons_of_ne_nil hx
  have hopens : Number.opens (· = Bytes.lineFeed) (b :: y ++ r) = false := by
    by_contra hopens
    refine hnewline ?_
    rw [Token.next, if_pos (by simpa using hopens)]
  have hopens' : Number.opens (· = Bytes.lineFeed) (b :: y ++ r') = false := hopens
  cases hcomment : Token.comment? (b :: y ++ r) with
  | some n =>
    simp only [Token.next, hopens, hcomment] at hlen
    obtain rfl : n = (b :: y).length := hlen
    simp only [Token.next, hopens, hopens', hcomment, h.comment? hcomment]
    rfl
  | none =>
    have hcomment' := h.comment?_eq_none hx hlen hcomment
    cases hquoted : quoted? (b :: y ++ r) with
    | some s =>
      simp only [Token.next, hopens, hcomment, hquoted] at hlen
      simp only [Token.next, hopens, hopens', hcomment, hcomment', hquoted,
        quoted?_append r' hquoted hlen]
      rfl
    | none =>
      have hmark := mt (fun hb => next_of_mark hb hquoted) hstray
      have hquoted' : quoted? (b :: y ++ r') = none := quoted?_eq_none hmark (y ++ r')
      have hnumber' := h.longest? hx
      cases hnumber : Number.longest? (b :: y ++ r) with
      | some kn =>
        rw [hnumber] at hnumber'
        simp only [Token.next, hopens, hopens', hcomment, hcomment', hquoted, hquoted', hnumber,
          hnumber']
        rfl
      | none =>
        rw [hnumber] at hnumber'
        have hnext := next_of_none hopens hcomment hquoted hnumber
        rw [hnext] at hlen hstray
        rw [hnext, next_of_none hopens' hcomment' hquoted' hnumber']
        by_cases hname : nameLength (b :: y ++ r) = 0
        · rw [if_neg (not_not.mpr hname)] at hlen hstray
          cases hsign : punctuation? (b :: y ++ r) with
          | none => rw [hsign] at hstray; exact absurd rfl hstray
          | some g =>
            have hname' : nameLength (b :: y ++ r') = 0 := nameLength_of_sign hsign (y ++ r')
            rw [if_neg (not_not.mpr hname), if_neg (not_not.mpr hname'),
              punctuation?_append hx h.stretch_eq, hsign]
        · rw [if_pos hname] at hlen
          have hspan := spanChars_of_nameLength hname
          have hend := spanChars_eq_zero (hspan.trans hlen) (Nat.zero_le _)
          have hname' := nameLength_append hlen hx (h.spanChars hend)
          have hlen' : nameLength (b :: y ++ r) = (b :: y).length := hlen
          rw [if_pos hname, hname', hlen', if_pos (by simp), List.take_left, List.take_left]

end Follow

end Token

end Code

end CtxThread
