import CtxThread.Proofs.Code.Whole

/-!
# Tokens at the front of a text

Which token a text opens with is often decided by its first bytes, whatever comes behind them.

## Main statements

- `Token.next_word`: a word of ASCII letters ends where no letter or digit follows
- `Token.scanFrom_token`, `Token.scanFrom_word`: a token that is read off the front
- `Token.endsName_of_next`: what comes first in a list without parameters ends a name
-/

namespace CtxThread.Code

namespace Token

/-- The characters of a class span the bytes up to the first that is none. -/
theorem spanChars_append {p : Char → Bool} {name tail : Bytes}
    (hname : ∀ b ∈ name, b < 0x80 ∧ p (Char.ofNat b.toNat) = true)
    (htail : ∀ b ∈ tail.head?, b < 0x80 ∧ p (Char.ofNat b.toNat) = false) :
    spanChars p 0 (name ++ tail) = name.length := by
  have hfirst : ∀ {b : UInt8} (rest : Bytes), b < 0x80 →
      Utf8.first b rest = ⟨some (Char.ofNat b.toNat), 1⟩ := by
    intro b rest hb
    rw [Utf8.first, if_pos hb]
  induction name with
  | nil =>
    cases tail with
    | nil => rfl
    | cons b rest =>
      obtain ⟨hascii, hp⟩ := htail b rfl
      simp [spanChars, hfirst rest hascii, hp]
  | cons b name ih =>
    obtain ⟨hascii, hp⟩ := hname b List.mem_cons_self
    rw [List.cons_append, spanChars, hfirst _ hascii]
    simp only [hp, if_true, Nat.sub_self]
    rw [ih fun c hc => hname c (List.mem_cons_of_mem b hc), List.length_cons, Nat.add_comm]

/-- The byte is no part of a name. -/
def EndsName (b : UInt8) : Prop := b < 0x80 ∧ isNamePart (Char.ofNat b.toNat) = false

instance (b : UInt8) : Decidable (EndsName b) := inferInstanceAs (Decidable (_ ∧ _))

/-- A plain word of ASCII letters and digits. -/
def isWord (name : Bytes) : Bool :=
  match name with
  | [] => false
  | b :: _ =>
    isFrank b && !Bytes.isBlank b && isNameStart (Char.ofNat b.toNat) &&
      name.all (fun c => c < 0x80 && isNamePart (Char.ofNat c.toNat)) &&
      nameLexeme name = .word .plain

/-- A word ends where no letter or digit follows. -/
theorem next_word {b : UInt8} {name tail : Bytes} (hword : isWord (b :: name) = true)
    (htail : ∀ c ∈ tail.head?, EndsName c) :
    next (b :: name ++ tail) = ⟨.word .plain, (b :: name).length, []⟩ := by
  simp only [isWord, Bool.and_eq_true, decide_eq_true_eq, List.all_eq_true] at hword
  obtain ⟨⟨⟨⟨hb, _⟩, hstart⟩, hname⟩, hplain⟩ := hword
  have hlen : nameLength (b :: name ++ tail) = (b :: name).length := by
    obtain ⟨hascii, _⟩ := hname b List.mem_cons_self
    rw [← spanChars_append hname htail]
    simp [nameLength, Utf8.first, hascii, hstart]
  rw [List.cons_append] at hlen ⊢
  rw [next_of_isFrank hb, hlen, ← List.cons_append, List.take_left, hplain]
  exact if_pos (Nat.succ_ne_zero _)

/-- A token that is read off the front of a text. -/
theorem scanFrom_token {l : Lexeme} {b : UInt8} {word tail : Bytes}
    (hb : Bytes.isBlank b = true → b = Bytes.lineFeed)
    (hnext : next (b :: word ++ tail) = ⟨l, (b :: word).length, []⟩) (fuel pos : Nat) :
    scanFrom (fuel + 1) pos (b :: word ++ tail) =
      ⟨l, pos, b :: word, []⟩ :: scanFrom fuel (pos + (b :: word).length) tail := by
  have hblank : ¬ (Bytes.isBlank b && b ≠ Bytes.lineFeed) = true := by
    rw [Bool.and_eq_true]
    rintro ⟨h, hne⟩
    exact of_decide_eq_true hne (hb h)
  have hshape : ofShape pos (b :: word ++ tail) ⟨l, (b :: word).length, []⟩ =
      ⟨l, pos, b :: word, []⟩ := by
    rw [ofShape, List.take_left]
    rfl
  rw [List.cons_append] at hnext hshape ⊢
  rw [scanFrom, if_neg hblank, hnext, hshape]
  simp

/-- A word that is read off the front of a text. -/
theorem scanFrom_word {name tail : Bytes} (hword : isWord name = true)
    (htail : ∀ c ∈ tail.head?, EndsName c) (fuel pos : Nat) :
    scanFrom (fuel + 1) pos (name ++ tail) =
      ⟨.word .plain, pos, name, []⟩ :: scanFrom fuel (pos + name.length) tail := by
  cases name with
  | nil => cases hword
  | cons b name =>
    refine scanFrom_token (fun hblank => ?_) (next_word hword htail) fuel pos
    simp [isWord, hblank] at hword

theorem next_lparen (tail : Bytes) : next (0x28 :: tail) = ⟨.sign .lparen, 1, []⟩ := by
  rw [next_of_isFrank (by decide)]
  rfl

theorem next_comma (tail : Bytes) : next (0x2C :: tail) = ⟨.sign .comma, 1, []⟩ := by
  rw [next_of_isFrank (by decide)]
  rfl

/-- A point in front of a letter is a sign. -/
theorem next_dot (tail : Bytes) : next (0x2E :: 0x43 :: tail) = ⟨.sign .dot, 1, []⟩ := rfl

/-- A name is no comment, no line end and no parenthesis. -/
theorem nameLexeme_ne (name : Bytes) : nameLexeme name ≠ .comment ∧
    nameLexeme name ≠ .newline ∧ nameLexeme name ≠ .sign .rparen := by
  have hkeywords : ∀ e ∈ Sign.keywords, e.2 ≠ .rparen := by decide
  simp only [nameLexeme]
  split
  · next g hg =>
    obtain ⟨l₁, l₂, hsplit, _⟩ := List.lookup_eq_some_iff.mp hg
    have hne := hkeywords (Utf8.decode name, g) (by rw [hsplit]; simp)
    exact ⟨by simp, by simp, by simpa using hne⟩
  · simp

/-- What may stand in an empty list of parameters ends a name. -/
theorem endsName_of_next {b : UInt8} {rest : Bytes}
    (h : (next (b :: rest)).lexeme = .comment ∨ (next (b :: rest)).lexeme = .newline ∨
      (next (b :: rest)).lexeme = .sign .rparen) : EndsName b := by
  have hpunctuation : ∀ e ∈ Sign.punctuation, e.2 = .rparen → Bytes.ofString e.1 = [0x29] := by
    decide +kernel
  revert h
  unfold next
  split
  · next hfeed =>
    obtain rfl : b = Bytes.lineFeed := by simpa [Number.opens] using hfeed
    exact fun _ => by decide
  · split
    · next n hcomment =>
      obtain rfl : b = 0x2F := by
        cases rest with
        | nil => cases hcomment
        | cons c rest =>
          by_contra hne
          simp [comment?, hne] at hcomment
      exact fun _ => by decide
    · split
      · next s hquoted =>
        obtain ⟨k, hk⟩ := exists_literal_of_quoted? hquoted
        intro h
        simp [hk] at h
      · split
        · intro h
          simp at h
        · split
          · intro h
            exact absurd h (by simp [nameLexeme_ne])
          · split
            · next g n hsign =>
              intro h
              obtain rfl : g = .rparen := by simpa using h
              obtain ⟨e, he, hen⟩ := Option.map_eq_some_iff.mp hsign
              have hspelling := hpunctuation e (List.mem_of_find?_eq_some he)
                (congrArg Prod.fst hen)
              have hprefix := List.find?_some he
              rw [hspelling, List.isPrefixOf_iff_prefix, List.cons_prefix_cons] at hprefix
              obtain rfl := hprefix.1
              decide
            · intro h
              simp at h

theorem endsName_of_isBlank {b : UInt8} (h : Bytes.isBlank b = true) : EndsName b := by
  have hmem : b ∈ ([0x20, 0x09, 0x0A, 0x0B, 0x0C, 0x0D] : List UInt8) := by
    simp only [Bytes.isBlank, Bool.or_eq_true, Bool.and_eq_true, decide_eq_true_eq] at h
    simp only [List.mem_cons, List.not_mem_nil, or_false]
    grind
  have hall : ∀ c ∈ ([0x20, 0x09, 0x0A, 0x0B, 0x0C, 0x0D] : List UInt8), EndsName c := by
    decide +kernel
  exact hall b hmem

end Token

end CtxThread.Code
