import CtxThread.Proofs.Code.Cuts

/-!
# The tokens of a piece of text

In front of a line feed a piece of text has tokens of its own: they stay the same, at the same
places, whatever comes behind the line feed, as long as no comment that is left open gets closed.

## Main statements

- `Token.scanFrom_piece`: a token that is read off the front of a text
- `Token.Cuts.exists_scanFrom`: the tokens of a piece that ends in front of a line feed
-/

namespace CtxThread.Code.Token

/-- The nodes inside a token are read off its own bytes. -/
theorem innerTrees_append {pos : Nat} {x r : Bytes} {parts : List (Kind × Nat)}
    (h : Quoted.total parts ≤ x.length) :
    innerTrees pos (x ++ r) parts = innerTrees pos x parts := by
  induction parts generalizing pos x with
  | nil => rfl
  | cons p parts ih =>
    rw [Quoted.total_cons] at h
    rw [innerTrees, innerTrees, List.take_append_of_le_length (by omega),
      List.drop_append_of_le_length (by omega), ih]
    rw [List.length_drop]
    omega

/-- A token that is read off the front of a text. -/
theorem scanFrom_piece {x r : Bytes} {s : Shape} (hx : x ≠ [])
    (hblank : ∀ c ∈ x.head?, Bytes.isBlank c = true → c = Bytes.lineFeed)
    (hnext : next (x ++ r) = s) (hlen : s.length = x.length) (pos : Nat) :
    scanFrom (x ++ r).length pos (x ++ r) =
      ⟨s.lexeme, pos, x, innerTrees pos x s.parts⟩ ::
        scanFrom r.length (pos + x.length) r := by
  have hshape : ofShape pos (x ++ r) s = ⟨s.lexeme, pos, x, innerTrees pos x s.parts⟩ := by
    have htotal := (next_fits (x ++ r)).total
    rw [hnext, hlen] at htotal
    rw [ofShape, hlen, List.take_left, innerTrees_append (htotal.trans (min_le_left _ _))]
  obtain ⟨c, x, rfl⟩ := List.exists_cons_of_ne_nil hx
  have hsolid : ¬ (Bytes.isBlank c && c ≠ Bytes.lineFeed) = true := by
    rw [Bool.and_eq_true]
    rintro ⟨h, hne⟩
    exact of_decide_eq_true hne (hblank c rfl h)
  have hrest : (x ++ r).drop ((c :: x).length - 1) = r := List.drop_left
  rw [List.cons_append] at hnext hshape ⊢
  rw [List.length_cons, scanFrom, if_neg hsolid, hnext, hshape]
  dsimp only
  have hfuel : r.length ≤ (x ++ r).length := by
    rw [List.length_append]
    omega
  rw [hrest, scanFrom_stable hfuel le_rfl]

/-- Line feeds one after the other are one token. -/
theorem next_feeds {x z : Bytes} (hx : x ≠ []) (hfeeds : ∀ c ∈ x, c = Bytes.lineFeed)
    (hz : ∀ c ∈ z.head?, c ≠ Bytes.lineFeed) : next (x ++ z) = ⟨.newline, x.length, []⟩ := by
  have hrest : z.takeWhile (· = Bytes.lineFeed) = [] := by
    cases z with
    | nil => rfl
    | cons c z => exact List.takeWhile_cons_of_neg (by simpa using hz c rfl)
  have hrun : (x ++ z).takeWhile (· = Bytes.lineFeed) = x := by
    rw [List.takeWhile_append_of_pos fun c hc => decide_eq_true (hfeeds c hc), hrest,
      List.append_nil]
  obtain ⟨c, y, rfl⟩ := List.exists_cons_of_ne_nil hx
  obtain rfl := hfeeds c List.mem_cons_self
  have hlen : next (Bytes.lineFeed :: y ++ z) =
      ⟨.newline, ((Bytes.lineFeed :: y ++ z).takeWhile (· = Bytes.lineFeed)).length, []⟩ := rfl
  rw [hlen, hrun]

/-- The line feeds at the front of a piece that does not end with one. -/
theorem Cuts.exists_feeds {a b : Bytes} {ws : List Atom} (h : Cuts b (Bytes.lineFeed :: a) ws)
    (ha : (Bytes.lineFeed :: a).getLast? ≠ some Bytes.lineFeed) :
    ∃ x y, Bytes.lineFeed :: a = x ++ y ∧ x ≠ [] ∧ (∀ c ∈ x, c = Bytes.lineFeed) ∧ y ≠ [] ∧
      (∀ c ∈ y.head?, c ≠ Bytes.lineFeed) ∧ Cuts b y ws := by
  set x := (Bytes.lineFeed :: a).takeWhile (· = Bytes.lineFeed) with hx
  set y := (Bytes.lineFeed :: a).dropWhile (· = Bytes.lineFeed) with hy
  have hxy : Bytes.lineFeed :: a = x ++ y := List.takeWhile_append_dropWhile.symm
  have hfeeds : ∀ c ∈ x, c = Bytes.lineFeed := by
    intro c hc
    have hfeed := List.mem_takeWhile_imp (hx ▸ hc)
    exact of_decide_eq_true hfeed
  have hxne : x ≠ [] := by
    rw [hx, List.takeWhile_cons_of_pos (by simp)]
    exact List.cons_ne_nil _ _
  refine ⟨x, y, hxy, hxne, hfeeds, fun hnil => ha ?_, fun c hc => ?_, ?_⟩
  · rw [hxy, hnil, List.append_nil, List.getLast?_eq_some_getLast hxne,
      hfeeds _ (List.getLast_mem hxne)]
  · have := List.head?_dropWhile_not (· = Bytes.lineFeed) (Bytes.lineFeed :: a)
    rw [← hy, Option.mem_def.mp hc] at this
    simpa using this
  · have hblanks : Cuts (y ++ b) (x ++ []) [] :=
      .blanks (fun c hc => by rw [hfeeds c hc]; rfl) .done
    rw [List.append_nil] at hblanks
    obtain ⟨vs, rfl, hvs⟩ := hblanks.split (hxy ▸ h)
    exact hvs

/-- The token at the front of a piece is the same in front of every line feed. -/
theorem Cuts.next_eq {x y b b' : Bytes} {ws : List Atom} (h : Cuts b y ws) (hx : x ≠ [])
    (hblank : ∀ c ∈ x.head?, Bytes.isBlank c = false)
    (hlen : (next (x ++ (y ++ b))).length = x.length)
    (hstray : (next (x ++ (y ++ b))).lexeme ≠ .stray) (hb : b.head? = some Bytes.lineFeed)
    (hb' : b'.head? = some Bytes.lineFeed)
    (hclose : 0x2A ∈ y → commentClose? b = none → commentClose? b' = none) :
    next (x ++ (y ++ b')) = next (x ++ (y ++ b)) := by
  have hseam : Seam b b' := by
    obtain ⟨t, rfl⟩ := List.head?_eq_some_iff.mp hb
    obtain ⟨t', rfl⟩ := List.head?_eq_some_iff.mp hb'
    exact ⟨rfl, .inl rfl, fun d hd => by rw [← Option.some.inj hd]; decide⟩
  refine (h.follow hseam hclose).next hx hlen (fun hnewline => ?_) hstray
  have hfeed := head?_of_newline hnewline
  rw [List.head?_append_of_ne_nil _ hx] at hfeed
  exact absurd (hblank _ hfeed) (by decide)

/-- In front of a line feed a piece of text has tokens of its own. -/
theorem Cuts.exists_scanFrom {a b : Bytes} {ws : List Atom} (h : Cuts b a ws)
    (hb : b.head? = some Bytes.lineFeed) (ha : a.getLast? ≠ some Bytes.lineFeed) (pos : Nat) :
    ∃ ts : List Token, (∀ t ∈ ts, t.stop ≤ pos + a.length) ∧
      ∀ b', b'.head? = some Bytes.lineFeed →
        (0x2A ∈ a → commentClose? b = none → commentClose? b' = none) →
        scanFrom (a ++ b').length pos (a ++ b') =
          ts ++ scanFrom b'.length (pos + a.length) b' := by
  induction hn : a.length using Nat.strong_induction_on generalizing a ws pos with
  | _ n ih =>
    subst hn
    -- what is left of the piece behind its first bytes
    have hstep : ∀ {x y : Bytes} {vs : List Atom}, a = x ++ y → x ≠ [] → Cuts b y vs →
        ∃ ts : List Token, (∀ t ∈ ts, t.stop ≤ pos + a.length) ∧
          ∀ b', b'.head? = some Bytes.lineFeed →
            (0x2A ∈ a → commentClose? b = none → commentClose? b' = none) →
            scanFrom (y ++ b').length (pos + x.length) (y ++ b') =
              ts ++ scanFrom b'.length (pos + a.length) b' := by
      rintro x y vs rfl hx hy
      have hlen := List.length_pos_iff.mpr hx
      rw [List.length_append, ← Nat.add_assoc]
      obtain ⟨ts, hts, hall⟩ := ih y.length (by rw [List.length_append]; omega) hy
        (fun hlast => ha (by
          rw [List.getLast?_append, hlast]
          rfl)) (pos + x.length) rfl
      exact ⟨ts, hts, fun b' hb' hclose =>
        hall b' hb' fun hmem => hclose (List.mem_append_right x hmem)⟩
    cases h with
    | done => exact ⟨[], List.forall_mem_nil _, fun b' _ _ => rfl⟩
    | @blank c a ws hc h =>
      by_cases hfeed : c = Bytes.lineFeed
      · subst hfeed
        obtain ⟨x, y, hxy, hxne, hfeeds, hyne, hhead, hy⟩ := (Cuts.blank hc h).exists_feeds ha
        obtain ⟨ts, hts, hall⟩ := hstep hxy hxne hy
        refine ⟨⟨.newline, pos, x, []⟩ :: ts, List.forall_mem_cons.mpr ⟨?_, hts⟩,
          fun b' hb' hclose => ?_⟩
        · change pos + x.length ≤ _
          rw [hxy, List.length_append]
          omega
        · have hnext := next_feeds (z := y ++ b') hxne hfeeds fun d hd => hhead d (by
            rwa [List.head?_append_of_ne_nil _ hyne] at hd)
          rw [hxy, List.append_assoc, scanFrom_piece hxne
            (fun d hd _ => hfeeds d (List.mem_of_mem_head? hd)) hnext rfl, hall b' hb' hclose,
            List.cons_append, hxy]
          rfl
      · obtain ⟨ts, hts, hall⟩ := hstep (List.singleton_append).symm (List.cons_ne_nil c []) h
        refine ⟨ts, hts, fun b' hb' hclose => ?_⟩
        rw [← hall b' hb' hclose, List.cons_append, List.length_cons, scanFrom,
          if_pos (by simp [hc, hfeed])]
        rfl
    | @token c a s ws hc hs hlen hstray h =>
      set x := (c :: a).take s.length with hx
      set y := (c :: a).drop s.length with hy
      have hxy : c :: a = x ++ y := (List.take_append_drop _ _).symm
      have hpos := (next_fits (c :: a ++ b)).pos
      have hxlen : s.length = x.length := by
        rw [hx, List.length_take, Nat.min_eq_left hlen]
      rw [hs, hxlen] at hpos
      have hxne : x ≠ [] := List.length_pos_iff.mp hpos
      have hblank : ∀ d ∈ x.head?, Bytes.isBlank d = false := by
        intro d hd
        rw [hx, List.head?_take, if_neg (by omega)] at hd
        rwa [← Option.some.inj hd]
      rw [hxy, List.append_assoc] at hs
      obtain ⟨ts, hts, hall⟩ := hstep hxy hxne h
      refine ⟨⟨s.lexeme, pos, x, innerTrees pos x s.parts⟩ :: ts,
        List.forall_mem_cons.mpr ⟨?_, hts⟩, fun b' hb' hclose => ?_⟩
      · change pos + x.length ≤ _
        rw [hxy, List.length_append]
        omega
      · have hnext : next (x ++ (y ++ b')) = s := by
          refine (h.next_eq hxne hblank (by rw [hs, hxlen]) (by rwa [hs]) hb hb'
            fun hmem => hclose (hxy ▸ List.mem_append_right x hmem)).trans hs
        have hfeed : ∀ d ∈ x.head?, Bytes.isBlank d = true → d = Bytes.lineFeed := by
          intro d hd hd'
          rw [hblank d hd] at hd'
          cases hd'
        rw [hxy, List.append_assoc, scanFrom_piece hxne hfeed hnext hxlen, hall b' hb' hclose,
          List.cons_append, hxy]

end CtxThread.Code.Token
