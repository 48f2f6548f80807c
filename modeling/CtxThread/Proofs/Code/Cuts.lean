import CtxThread.Proofs.Code.Separator
import CtxThread.Proofs.Code.Munch

/-!
# What a text is cut into

A text can be cut into its tokens piece by piece: what a piece is cut into does not depend on the
text behind it, as long as that goes on in a way that makes no difference. Comments, line ends and
semicolons are left out, because they do not tell what is declared.

## Main definitions

- `Token.atoms`: the tokens that tell what is declared, without their places
- `Token.Cuts`: a piece of text, what comes behind it, and the atoms that the piece is cut into
- `Token.Seam`: two ways for a text to go on that make no difference

## Main statements

- `Token.Cuts.append`, `Token.Cuts.split`: pieces one after the other
- `Token.Cuts.atomsOf_eq`: what the front of a text is cut into are its first atoms
- `Token.cuts_of_scanFrom`: the tokens up to an offset outside of all tokens
- `Token.Cuts.seam`: another text behind a piece
-/

namespace CtxThread.Code

/-- Comments, line ends and semicolons, which do not tell what is declared. -/
def Lexeme.isLoose : Lexeme → Bool
  | .comment | .newline | .sign .semicolon => true
  | _ => false

/-- A token without its place. -/
abbrev Atom := Lexeme × Bytes

namespace Token

/-- What tells what is declared: the tokens other than comments, line ends and semicolons. -/
def atoms (ts : List Token) : List Atom :=
  (ts.filter fun t => !t.lexeme.isLoose).map fun t => (t.lexeme, t.bytes)

@[simp] theorem atoms_nil : atoms [] = [] := rfl

theorem atoms_cons_of_loose {t : Token} (h : t.lexeme.isLoose = true) (ts : List Token) :
    atoms (t :: ts) = atoms ts := by
  simp [atoms, h]

theorem atoms_cons {t : Token} (h : t.lexeme.isLoose = false) (ts : List Token) :
    atoms (t :: ts) = (t.lexeme, t.bytes) :: atoms ts := by
  simp [atoms, h]

theorem atoms_append (ts us : List Token) : atoms (ts ++ us) = atoms ts ++ atoms us := by
  simp [atoms]

theorem atoms_shift (d : Nat) (ts : List Token) : atoms (ts.map (shift d)) = atoms ts := by
  simp [atoms, List.filter_map, Function.comp_def, shift]

/-- The atom of a token, if it is one. -/
def atomOf (l : Lexeme) (x : Bytes) : List Atom := if l.isLoose then [] else [(l, x)]

/-- The text is cut into these atoms, with `rest` behind it: blanks are passed over, and each token
ends within the text and belongs to some construct. -/
inductive Cuts (rest : Bytes) : Bytes → List Atom → Prop
  | done : Cuts rest [] []
  | blank {c : UInt8} {a : Bytes} {ws : List Atom} (hc : Bytes.isBlank c = true)
      (h : Cuts rest a ws) : Cuts rest (c :: a) ws
  | token {c : UInt8} {a : Bytes} {s : Shape} {ws : List Atom} (hc : Bytes.isBlank c = false)
      (hs : next (c :: a ++ rest) = s) (hlen : s.length ≤ (c :: a).length)
      (hstray : s.lexeme ≠ .stray) (h : Cuts rest ((c :: a).drop s.length) ws) :
      Cuts rest (c :: a) (atomOf s.lexeme ((c :: a).take s.length) ++ ws)

namespace Cuts

variable {a a' b b' : Bytes} {ws ws' : List Atom}

/-- A token at the front. -/
theorem cons {x : Bytes} (hblank : ∀ c ∈ x.head?, Bytes.isBlank c = false) {s : Shape}
    (hs : next (x ++ (a ++ b)) = s) (hlen : s.length = x.length) (hstray : s.lexeme ≠ .stray)
    (h : Cuts b a ws) : Cuts b (x ++ a) (atomOf s.lexeme x ++ ws) := by
  cases x with
  | nil =>
    have := (next_fits ([] ++ (a ++ b))).pos
    rw [hs, hlen] at this
    cases this
  | cons c x =>
    have htake : (c :: x ++ a).take s.length = c :: x := by
      rw [hlen]
      exact List.take_left
    have hdrop : (c :: x ++ a).drop s.length = a := by
      rw [hlen]
      exact List.drop_left
    rw [List.cons_append] at htake hdrop
    have hcons :
        Cuts b (c :: (x ++ a)) (atomOf s.lexeme ((c :: (x ++ a)).take s.length) ++ ws) := by
      refine .token (hblank c rfl) ?_ ?_ hstray (hdrop.symm ▸ h)
      · rw [← hs, List.cons_append, List.append_assoc, List.cons_append]
      · rw [hlen, List.length_cons, List.length_cons, List.length_append]
        omega
    rw [htake] at hcons
    exact hcons

theorem append (h : Cuts (a' ++ b) a ws) (h' : Cuts b a' ws') : Cuts b (a ++ a') (ws ++ ws') := by
  induction h with
  | done => exact h'
  | blank hc _ ih => exact .blank hc ih
  | @token c a s ws hc hs hlen hstray _ ih =>
    have happ : c :: a ++ a' = (c :: a).take s.length ++ ((c :: a).drop s.length ++ a') := by
      rw [← List.append_assoc, List.take_append_drop]
    rw [happ, List.append_assoc]
    refine cons ?_ ?_ ?_ hstray ih
    · intro d hd
      have hpos := (next_fits (c :: a ++ (a' ++ b))).pos
      rw [hs] at hpos
      rw [List.head?_take, if_neg (by omega)] at hd
      exact Option.some.inj hd ▸ hc
    · rw [← List.append_assoc, ← List.append_assoc, List.append_assoc _ a',
        List.take_append_drop, hs]
    · rw [List.length_take]
      omega

theorem blanks (ha : ∀ c ∈ a, Bytes.isBlank c = true) (h : Cuts b a' ws) :
    Cuts b (a ++ a') ws := by
  induction a with
  | nil => exact h
  | cons c a ih =>
    exact .blank (ha c List.mem_cons_self) (ih fun d hd => ha d (List.mem_cons_of_mem c hd))

/-- What is cut into atoms up to some place goes on from there. -/
theorem split (h : Cuts (a' ++ b) a ws) (hall : Cuts b (a ++ a') ws') :
    ∃ vs, ws' = ws ++ vs ∧ Cuts b a' vs := by
  induction h generalizing ws' with
  | done => exact ⟨ws', rfl, hall⟩
  | @blank c a ws hc _ ih =>
    cases hall with
    | blank _ h => exact ih h
    | token hc' _ _ _ _ => rw [hc] at hc'; cases hc'
  | @token c a s ws hc hs hlen hstray _ ih =>
    rw [List.cons_append] at hall
    cases hall with
    | blank hc' _ => rw [hc] at hc'; cases hc'
    | @token _ _ s' vs _ hs' _ _ h =>
      obtain rfl : s = s' := by
        rw [← hs, ← hs', ← List.cons_append, List.append_assoc]
      rw [← List.cons_append, List.drop_append_of_le_length hlen] at h
      rw [← List.cons_append, List.take_append_of_le_length hlen]
      obtain ⟨us, rfl, hus⟩ := ih h
      exact ⟨us, (List.append_assoc ..).symm, hus⟩

/-- The first byte of a text that is cut into atoms is a blank or starts a token. -/
theorem not_stray (h : Cuts b a ws) {c : UInt8} {t : Bytes} (ha : a = c :: t)
    (hc : Bytes.isBlank c = false) : (next (a ++ b)).lexeme ≠ .stray := by
  cases h with
  | done => cases ha
  | blank hc' _ =>
    cases ha
    rw [hc] at hc'
    cases hc'
  | token _ hs _ hstray _ => rwa [hs]

/-- Nothing is declared by separators. -/
theorem eq_nil (h : Cuts b a ws) (ha : ∀ c ∈ a, Bytes.isSeparator c = true) : ws = [] := by
  induction h with
  | done => rfl
  | blank _ _ ih => exact ih fun c hc => ha c (List.mem_cons_of_mem _ hc)
  | @token c a s ws hc hs _ _ _ ih =>
    obtain rfl : c = 0x3B := by
      have := ha c List.mem_cons_self
      rw [Bytes.isSeparator, hc, Bool.false_or] at this
      exact of_decide_eq_true this
    obtain rfl : (⟨.sign .semicolon, 1, []⟩ : Shape) = s := by
      rw [← hs, List.cons_append, next_of_isFrank (by decide)]
      rfl
    rw [ih fun d hd => ha d (List.mem_of_mem_drop hd)]
    rfl

end Cuts

/-! ## Cutting and scanning -/

/-- The atoms of a text. -/
def atomsOf (src : Bytes) : List Atom := atoms (scanFrom src.length 0 src)

theorem atoms_scanFrom {fuel : Nat} (pos : Nat) {src : Bytes} (h : src.length ≤ fuel) :
    atoms (scanFrom fuel pos src) = atomsOf src := by
  have hshift := scanFrom_shift pos fuel 0 src
  rw [Nat.zero_add] at hshift
  rw [atomsOf, hshift, atoms_shift, scanFrom_stable h le_rfl]

theorem atomOf_eq (t : Token) (ts : List Token) :
    atoms (t :: ts) = atomOf t.lexeme t.bytes ++ atoms ts := by
  cases h : t.lexeme.isLoose with
  | true => rw [atoms_cons_of_loose h, atomOf, if_pos h]; rfl
  | false => rw [atoms_cons h, atomOf, if_neg (by simp [h])]; rfl

/-- A text that does not open with a blank within a line opens with a token. -/
theorem atomsOf_cons {c : UInt8} {src : Bytes}
    (hc : ¬ (Bytes.isBlank c && c ≠ Bytes.lineFeed) = true) :
    atomsOf (c :: src) =
      atomOf (next (c :: src)).lexeme ((c :: src).take (next (c :: src)).length) ++
        atomsOf ((c :: src).drop (next (c :: src)).length) := by
  have hpos := (next_fits (c :: src)).pos
  rw [atomsOf, List.length_cons, scanFrom, if_neg hc, atomOf_eq, atoms_scanFrom]
  · simp only [ofShape, List.length_take, List.length_cons]
    congr 2
    by_cases hlen : (next (c :: src)).length ≤ src.length + 1
    · obtain ⟨n, hn⟩ := Nat.exists_eq_succ_of_ne_zero hpos.ne'
      rw [Nat.min_eq_left hlen, hn, List.drop_succ_cons]
      rfl
    · rw [List.drop_eq_nil_of_le (by omega), List.drop_eq_nil_of_le]
      rw [List.length_cons]
      omega
  · rw [List.length_drop]
    omega

theorem atomsOf_lineFeed (src : Bytes) :
    atomsOf (Bytes.lineFeed :: src) = atomsOf (src.dropWhile (· = Bytes.lineFeed)) := by
  have hnext : next (Bytes.lineFeed :: src) =
      ⟨.newline, (src.takeWhile (· = Bytes.lineFeed)).length + 1, []⟩ := rfl
  have hdrop : (src.takeWhile (· = Bytes.lineFeed) ++ src.dropWhile (· = Bytes.lineFeed)).drop
      (src.takeWhile (· = Bytes.lineFeed)).length = src.dropWhile (· = Bytes.lineFeed) :=
    List.drop_left
  rw [List.takeWhile_append_dropWhile] at hdrop
  rw [atomsOf_cons (by decide), hnext, List.drop_succ_cons, hdrop]
  rfl

theorem atomsOf_blank {c : UInt8} (hc : Bytes.isBlank c = true) (src : Bytes) :
    atomsOf (c :: src) = atomsOf src := by
  by_cases hfeed : c = Bytes.lineFeed
  · subst hfeed
    rw [atomsOf_lineFeed]
    cases src with
    | nil => rfl
    | cons d src =>
      by_cases hd : d = Bytes.lineFeed
      · subst hd
        rw [atomsOf_lineFeed, List.dropWhile_cons_of_pos (by simp)]
      · rw [List.dropWhile_cons_of_neg (by simpa using hd)]
  · rw [atomsOf, List.length_cons, scanFrom, if_pos (by simp [hc, hfeed]), atoms_scanFrom _ le_rfl]

/-- What a text is cut into are its first atoms. -/
theorem Cuts.atomsOf_eq {a b : Bytes} {ws : List Atom} (h : Cuts b a ws) :
    atomsOf (a ++ b) = ws ++ atomsOf b := by
  induction h with
  | done => rfl
  | blank hc _ ih => rw [List.cons_append, atomsOf_blank hc, ih]
  | @token c a s ws hc hs hlen _ _ ih =>
    rw [List.cons_append, atomsOf_cons (by simp [hc]), ← List.cons_append, hs,
      List.take_append_of_le_length hlen, List.drop_append_of_le_length hlen, ih, List.append_assoc]

/-! ## Tokens end with the text -/

theorem commentClose?_le {src : Bytes} {n : Nat} (h : commentClose? src = some n) :
    n ≤ src.length := by
  induction src generalizing n with
  | nil => cases h
  | cons b rest ih =>
    rw [commentClose?] at h
    split at h
    · cases h
    · split at h
      · next hclose =>
        obtain ⟨-, hopens⟩ := Bool.and_eq_true_iff.mp hclose
        cases rest with
        | nil => cases hopens
        | cons c rest =>
          rw [← Option.some.inj h, List.length_cons, List.length_cons]
          omega
      · obtain ⟨m, hm, rfl⟩ := Option.map_eq_some_iff.mp h
        exact Nat.succ_le_succ (ih hm)

theorem comment?_le {src : Bytes} {n : Nat} (h : comment? src = some n) : n ≤ src.length := by
  match src with
  | [] | [_] => cases h
  | b :: c :: rest =>
    simp only [comment?] at h
    rw [List.length_cons, List.length_cons]
    split at h
    · have := (List.takeWhile_prefix (fun d => decide (d ≠ Bytes.lineFeed) && decide (d ≠ 0x00))
        (l := rest)).length_le
      have := Option.some.inj h
      omega
    · split at h
      · obtain ⟨m, hm, rfl⟩ := Option.map_eq_some_iff.mp h
        have := commentClose?_le hm
        omega
      · cases h

theorem spanChars_le (p : Char → Bool) (skip : Nat) (src : Bytes) :
    spanChars p skip src ≤ src.length := by
  fun_induction spanChars p skip src with
  | case1 => exact Nat.zero_le _
  | case2 skip b rest ih => rw [List.length_cons]; omega
  | case3 b rest o c hc hpc ih => rw [List.length_cons]; omega
  | case4 | case5 => exact Nat.zero_le _

theorem nameLength_le (src : Bytes) : nameLength src ≤ src.length := by
  by_cases h : nameLength src = 0
  · rw [h]
    exact Nat.zero_le _
  · rw [← spanChars_of_nameLength h]
    exact spanChars_le _ _ _

theorem le_of_opens {p : UInt8 → Bool} {src : Bytes} {n : Nat}
    (h : Number.opens p (src.drop n) = true) : n + 1 ≤ src.length := by
  by_contra hlt
  rw [List.drop_eq_nil_of_le (by omega)] at h
  cases h

theorem quoted?_le {src : Bytes} {s : Shape} (h : quoted? src = some s) :
    s.length ≤ src.length := by
  cases src with
  | nil => cases h
  | cons b rest =>
    simp only [quoted?] at h
    rw [List.length_cons]
    split at h
    · obtain ⟨ps, hps, rfl⟩ := Option.map_eq_some_iff.mp h
      have hle := Quoted.parts?_total hps
      change 2 + Quoted.total ps ≤ _
      omega
    · split at h
      · obtain ⟨n, hn, rfl⟩ := Option.map_eq_some_iff.mp h
        have hle := Quoted.raw?_lt hn
        change 2 + (n + 0) ≤ _
        omega
      · split at h
        · obtain ⟨n, hn, rfl⟩ := Option.map_eq_some_iff.mp h
          obtain ⟨m, _, hm⟩ := Option.bind_eq_some_iff.mp hn
          split at hm
          · next hopens =>
            have := le_of_opens hopens
            rw [← Option.some.inj hm]
            dsimp only
            omega
          · cases hm
        · cases h

theorem forms_le {src : Bytes} {f : Kind × Nat} (h : f ∈ Number.forms src) :
    f.2 ≤ src.length := by
  simp only [Number.forms, List.mem_append, List.mem_map] at h
  rcases h with (⟨n, hn, rfl⟩ | ⟨n, hn | hn, rfl⟩) | ⟨n, hn, rfl⟩
  · exact Number.integers_le hn
  · exact Number.decimalFloats_le hn
  · exact Number.hexFloats_le hn
  · exact le_of_opens (List.mem_filter.mp hn).2

/-- A token ends with the text at the latest. -/
theorem next_length_le (b : UInt8) (rest : Bytes) :
    (next (b :: rest)).length ≤ (b :: rest).length := by
  unfold next
  split
  · exact (List.takeWhile_prefix _).length_le
  · split
    · next n hn => exact comment?_le hn
    · split
      · next s hs => exact quoted?_le hs
      · split
        · next k n hn => exact forms_le (Number.longest?_mem_forms hn)
        · split
          · exact nameLength_le (b :: rest)
          · split
            · next g n hn =>
              obtain ⟨e, he, hen⟩ := Option.map_eq_some_iff.mp hn
              obtain rfl : (Bytes.ofString e.1).length = n := congrArg Prod.snd hen
              have hprefix := List.find?_some he
              exact (List.isPrefixOf_iff_prefix.mp hprefix).length_le
            · exact Nat.succ_le_succ (Nat.zero_le _)

/-! ## The token at an offset -/

/-- The token that a text goes on with at an offset. -/
def tokenAt (src : Bytes) (pos : Nat) : Token := ofShape pos (src.drop pos) (next (src.drop pos))

theorem scanFrom_drop {src : Bytes} {pos : Nat} (h : pos < src.length) (fuel : Nat) :
    scanFrom (fuel + 1) pos (src.drop pos) =
      if (Bytes.isBlank src[pos] && src[pos] ≠ Bytes.lineFeed) = true then
        scanFrom fuel (pos + 1) (src.drop (pos + 1))
      else tokenAt src pos ::
        scanFrom fuel (tokenAt src pos).stop (src.drop (tokenAt src pos).stop) := by
  have htext := List.drop_eq_getElem_cons h
  have hpos : 0 < (tokenAt src pos).bytes.length := by
    have := (ofShape_laid h (next_fits (src.drop pos))).start_lt
    change pos < pos + _ at this
    exact Nat.pos_of_lt_add_right this
  rw [tokenAt, htext, scanFrom] at *
  split
  · rfl
  · refine congrArg₂ (_ :: scanFrom fuel · ·) rfl ?_
    rw [List.drop_drop]
    congr 1
    change pos + 1 + (_ - 1) = pos + _
    omega

section TokenAt

variable {src : Bytes} {pos : Nat} (h : pos < src.length)

include h

theorem tokenAt_laid : (tokenAt src pos).Laid src := ofShape_laid h (next_fits (src.drop pos))

theorem length_tokenAt : (next (src.drop pos)).length = (tokenAt src pos).bytes.length := by
  have hle := next_length_le src[pos] (src.drop (pos + 1))
  rw [← List.drop_eq_getElem_cons h] at hle
  rw [tokenAt, ofShape, List.length_take, Nat.min_eq_left hle]

theorem tokenAt_append :
    (tokenAt src pos).bytes ++ src.drop (tokenAt src pos).stop = src.drop pos := by
  have hlaid := tokenAt_laid h
  rw [hlaid.bytes, ← Bytes.drop_eq_slice_append hlaid.start_lt.le hlaid.stop_le]
  rfl

omit h in
/-- A line end is one or more line feeds. -/
theorem isBlank_of_newline (hl : (tokenAt src pos).lexeme = .newline) :
    ∀ c ∈ (tokenAt src pos).bytes, Bytes.isBlank c = true := by
  unfold tokenAt at hl ⊢
  generalize src.drop pos = text at hl
  obtain ⟨rest, rfl⟩ := List.head?_eq_some_iff.mp
    (head?_of_newline (show (next text).lexeme = .newline from hl))
  have hlen : (next (Bytes.lineFeed :: rest)).length =
      ((Bytes.lineFeed :: rest).takeWhile (· = Bytes.lineFeed)).length := rfl
  intro c hc
  rw [ofShape, hlen, ← List.prefix_iff_eq_take.mp (List.takeWhile_prefix _)] at hc
  have hfeed := List.mem_takeWhile_imp hc
  rw [of_decide_eq_true hfeed]
  rfl

end TokenAt

/-- The tokens up to an offset outside of all tokens are what the text is cut into there. -/
theorem cuts_of_scanFrom {src : Bytes} {fuel pos hi : Nat} (hfuel : src.length - pos ≤ fuel)
    (hpos : pos ≤ hi) (hhi : hi ≤ src.length)
    (hstray : ∀ t ∈ scanFrom fuel pos (src.drop pos), t.lexeme ≠ .stray)
    (hclear : ∀ t ∈ scanFrom fuel pos (src.drop pos), t.lexeme ≠ .newline →
      hi ≤ t.start ∨ t.stop ≤ hi) :
    Cuts (src.drop hi) (src.slice pos hi)
      (atoms ((scanFrom fuel pos (src.drop pos)).filter fun t => t.start < hi)) := by
  have hdone : ∀ {pos : Nat} {ts : List Token}, (∀ t ∈ ts, hi ≤ t.start) →
      (∀ c ∈ src.slice pos hi, Bytes.isBlank c = true) →
      Cuts (src.drop hi) (src.slice pos hi) (atoms (ts.filter fun t => t.start < hi)) := by
    intro pos ts hts hblank
    have hnil : Cuts (src.drop hi) [] [] := .done
    rw [List.filter_eq_nil_iff.mpr fun t ht => by simpa using hts t ht]
    simpa using Cuts.blanks hblank hnil
  induction fuel generalizing pos with
  | zero =>
    obtain rfl : pos = hi := by omega
    exact hdone (fun t ht => by cases ht) (by simp [Bytes.slice_self])
  | succ fuel ih =>
    by_cases heq : pos = hi
    · subst heq
      exact hdone (fun t ht => le_start_of_mem ht) (by simp [Bytes.slice_self])
    have hlt : pos < src.length := by omega
    rw [scanFrom_drop hlt] at hstray hclear ⊢
    split at hstray
    · next hblank =>
      have hone : src.slice pos (pos + 1) = [src[pos]] := by
        rw [Bytes.slice_succ le_rfl (List.getElem?_eq_getElem hlt), Bytes.slice_self,
          List.nil_append]
      rw [if_pos hblank] at hclear ⊢
      rw [Bytes.slice_append (Nat.le_succ pos) (show pos + 1 ≤ hi by omega) hhi, hone]
      exact .blank (Bool.and_eq_true_iff.mp hblank).1 (ih (by omega) (by omega) hstray hclear)
    · next hblank =>
      rw [if_neg hblank] at hclear ⊢
      have hlaid := tokenAt_laid hlt
      have hlen := length_tokenAt hlt
      have hopen := tokenAt_append hlt
      have hfeeds := @isBlank_of_newline src pos
      have hlexeme : (next (src.drop pos)).lexeme = (tokenAt src pos).lexeme := rfl
      have hstart : (tokenAt src pos).start = pos := rfl
      generalize tokenAt src pos = t at *
      obtain ⟨hstray, hstrays⟩ := List.forall_mem_cons.mp hstray
      obtain ⟨hclear, hclears⟩ := List.forall_mem_cons.mp hclear
      have hspan := hlaid.start_lt
      have hsplit : t.stop ≤ hi → src.slice pos hi = t.bytes ++ src.slice t.stop hi := by
        intro hin
        rw [hlaid.bytes, hstart, ← Bytes.slice_append (by omega) hin hhi]
      rw [List.filter_cons, if_pos (decide_eq_true (show t.start < hi by omega))]
      by_cases hnewline : t.lexeme = .newline
      · -- line ends are passed over one by one
        rw [atoms_cons_of_loose (by rw [hnewline]; rfl)]
        by_cases hin : t.stop ≤ hi
        · rw [hsplit hin]
          exact .blanks (hfeeds hnewline) (ih (by omega) hin hstrays hclears)
        · refine hdone (fun u hu => ?_) fun c hc => hfeeds hnewline c ?_
          · have := le_start_of_mem hu
            omega
          · rw [hlaid.bytes, Bytes.slice_append (show t.start ≤ hi by omega)
              (show hi ≤ t.stop by omega) hlaid.stop_le, hstart]
            exact List.mem_append_left _ hc
      · have hin : t.stop ≤ hi := by
          rcases hclear hnewline with h | h
          · omega
          · exact h
        have htail : t.bytes ++ (src.slice t.stop hi ++ src.drop hi) = src.drop pos := by
          rw [← Bytes.drop_eq_slice_append hin hhi, hopen]
        rw [hsplit hin, atomOf_eq, ← hlexeme]
        refine Cuts.cons (fun c hc => ?_) (by rw [htail]) hlen (hlexeme ▸ hstray)
          (ih (by omega) hin hstrays hclears)
        have hget : src[pos] = c := by
          have := congrArg List.head? hopen
          rw [List.head?_append_of_ne_nil _ (List.ne_nil_of_mem (List.mem_of_mem_head? hc)),
            Option.mem_def.mp hc, List.head?_drop, List.getElem?_eq_getElem hlt] at this
          exact (Option.some.inj this).symm
        refine Bool.eq_false_of_not_eq_true fun hc => hnewline ?_
        have hfeed : src[pos] = Bytes.lineFeed := by simpa [hget, hc] using hblank
        rw [← hlexeme, List.drop_eq_getElem_cons hlt, hfeed]
        rfl

/-! ## Going on in another way -/

/-- A comment that is not closed is not closed in another way either. -/
theorem commentClose?_append_eq_none {u v : Bytes}
    (h : commentClose? u = none → commentClose? v = none)
    (hslash : v.head? = some 0x2F → u.head? = some 0x2F) {x : Bytes}
    (hx : commentClose? (x ++ u) = none) : commentClose? (x ++ v) = none := by
  induction x with
  | nil => exact h hx
  | cons b x ih =>
    rw [List.cons_append, commentClose?] at hx ⊢
    by_cases hnul : b = 0x00
    · rw [if_pos hnul]
    · rw [if_neg hnul] at hx ⊢
      split at hx
      · cases hx
      · next hopens =>
        rw [if_neg, ih (Option.map_eq_none_iff.mp hx)]
        · rfl
        · refine fun hopens' => hopens ?_
          rw [Bool.and_eq_true] at hopens' ⊢
          refine ⟨hopens'.1, ?_⟩
          cases x with
          | cons c x => exact hopens'.2
          | nil =>
            cases v with
            | nil => exact absurd hopens'.2 (by simp [Number.opens])
            | cons c v =>
              obtain rfl : c = 0x2F := of_decide_eq_true hopens'.2
              obtain ⟨u', hu'⟩ := List.head?_eq_some_iff.mp (hslash rfl)
              rw [List.nil_append, hu']
              rfl

/-- Two ways for a text to go on that make no difference to the tokens before. -/
structure Seam (b b' : Bytes) : Prop where
  stretch_eq : stretch b = stretch b'
  head : b'.head? = b.head? ∨ b'.head? = some Bytes.lineFeed
  plain : ∀ c ∈ b.head?, c < 0x80 ∧ Number.isBase c = false ∧ c ≠ 0x2A

/-- A token goes on alike in front of a seam. -/
theorem Cuts.follow {a b b' : Bytes} {ws : List Atom} (h : Cuts b a ws) (hseam : Seam b b')
    (hclose : 0x2A ∈ a → commentClose? b = none → commentClose? b' = none) :
    Follow (a ++ b) (a ++ b') := by
  have hslash : b'.head? = some 0x2F → b.head? = some 0x2F := by
    intro h
    rcases hseam.head with heq | hfeed
    · rw [← heq, h]
    · rw [hfeed] at h
      cases h
  cases a with
  | nil =>
    refine ⟨hseam.stretch_eq, hseam.head, fun c t heq hbase => ?_, fun t heq => ?_,
      fun c t heq hc => ?_⟩
    · obtain ⟨-, hnot, -⟩ := hseam.plain c (by rw [show b = c :: t from heq]; rfl)
      rw [hbase] at hnot
      cases hnot
    · exact absurd rfl (hseam.plain 0x2A (by rw [show b = 0x2A :: t from heq]; rfl)).2.2
    · exact absurd (hseam.plain c (by rw [show b = c :: t from heq]; rfl)).1
        (UInt8.not_lt.mpr hc)
  | cons d a =>
    refine ⟨stretch_append_congr _ hseam.stretch_eq, .inl rfl, fun c t heq _ => ?_, fun t heq => ?_,
      fun c t heq hc => ?_⟩
    · obtain ⟨rfl, rfl⟩ := List.cons.inj heq
      exact ⟨a ++ b', rfl, stretch_append_congr a hseam.stretch_eq⟩
    · obtain ⟨rfl, rfl⟩ := List.cons.inj heq
      exact ⟨a ++ b', rfl, commentClose?_append_eq_none (hclose List.mem_cons_self) hslash⟩
    · obtain ⟨rfl, -⟩ := List.cons.inj heq
      refine h.not_stray rfl ?_
      by_contra hblank
      have : d < 0x80 := (endsName_of_isBlank (by simpa using hblank)).1
      exact absurd this (UInt8.not_lt.mpr hc)

/-- What a text is cut into does not depend on how it goes on behind a seam. -/
theorem Cuts.seam {a b b' : Bytes} {ws : List Atom} (h : Cuts b a ws) (hseam : Seam b b')
    (hclose : 0x2A ∈ a → commentClose? b = none → commentClose? b' = none) : Cuts b' a ws := by
  induction h with
  | done => exact .done
  | blank hc _ ih => exact .blank hc (ih fun h => hclose (List.mem_cons_of_mem _ h))
  | @token c a s ws hc hs hlen hstray h ih =>
    have hclose' := fun hmem => hclose (List.mem_of_mem_drop (i := s.length) hmem)
    refine .token hc ?_ hlen hstray (ih hclose')
    have hfollow := h.follow hseam hclose'
    have hpos := (next_fits (c :: a ++ b)).pos
    have hx : (c :: a).take s.length ≠ [] := by
      rw [hs] at hpos
      simp [hpos.ne']
    have htake : ∀ y : Bytes,
        (c :: a).take s.length ++ ((c :: a).drop s.length ++ y) = c :: a ++ y := by
      intro y
      rw [← List.append_assoc, List.take_append_drop]
    have hnext := hfollow.next hx
    rw [htake, htake, hs] at hnext
    refine hnext ?_ ?_ hstray
    · rw [List.length_take, Nat.min_eq_left hlen]
    · rintro hnewline
      have := head?_of_newline (hs.symm ▸ hnewline)
      obtain rfl : c = Bytes.lineFeed := Option.some.inj this
      cases hc

end Token

end CtxThread.Code
