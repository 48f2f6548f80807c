import CtxThread.Proofs.Code.Whole

/-!
# How far a number is read

Whether and how a text opens with a number is told by its first two bytes and the run of bytes
that a number can go on with.

## Main definitions

- `isRunning`, `stretch`: the bytes that numbers and signs can go on with
- `Number.reach`: what of a text is looked at for a number

## Main statements

- `Number.longest?_reach`: the rest does not count
-/

namespace CtxThread.Code

/-- A byte that a number or a sign can go on with, the letters after a leading zero aside. -/
def isRunning (b : UInt8) : Bool :=
  Number.isHex b || (Bytes.ofString "pPi_.+-<>=^&|").contains b

/-- The bytes at the front of a text that a number or a sign can go on with. -/
def stretch (src : Bytes) : Bytes := src.takeWhile isRunning

theorem stretch_cons_of_pos {b : UInt8} (h : isRunning b = true) (rest : Bytes) :
    stretch (b :: rest) = b :: stretch rest := List.takeWhile_cons_of_pos h

theorem stretch_cons_of_neg {b : UInt8} (h : isRunning b = false) (rest : Bytes) :
    stretch (b :: rest) = [] := List.takeWhile_cons_of_neg (by simp [h])

theorem stretch_stretch (src : Bytes) : stretch (stretch src) = stretch src := by
  induction src with
  | nil => rfl
  | cons b rest ih =>
    cases hb : isRunning b with
    | true => rw [stretch_cons_of_pos hb, stretch_cons_of_pos hb, ih]
    | false => rw [stretch_cons_of_neg hb]; rfl

theorem stretch_cons_congr (b : UInt8) {s s' : Bytes} (h : stretch s = stretch s') :
    stretch (b :: s) = stretch (b :: s') := by
  cases hb : isRunning b with
  | true => rw [stretch_cons_of_pos hb, stretch_cons_of_pos hb, h]
  | false => rw [stretch_cons_of_neg hb, stretch_cons_of_neg hb]

theorem stretch_drop {src : Bytes} {n : Nat} (h : n ≤ (stretch src).length) :
    stretch (src.drop n) = (stretch src).drop n := by
  induction n generalizing src with
  | zero => rfl
  | succ n ih =>
    cases src with
    | nil => cases h
    | cons b rest =>
      cases hb : isRunning b with
      | false =>
        rw [stretch_cons_of_neg hb] at h
        cases h
      | true =>
        rw [stretch_cons_of_pos hb] at h ⊢
        exact ih (Nat.le_of_succ_le_succ h)

namespace Number

theorem isRunning_of_isHex (b : UInt8) (h : isHex b = true) : isRunning b = true := by
  rw [isRunning, h, Bool.true_or]

theorem isRunning_of_isDecimal (b : UInt8) (h : isDecimal b = true) : isRunning b = true :=
  isRunning_of_isHex b (by rw [isHex, h, Bool.true_or, Bool.true_or])

theorem isRunning_of_isOctal (b : UInt8) (h : isOctal b = true) : isRunning b = true := by
  refine isRunning_of_isDecimal b ?_
  simp only [isOctal, isDecimal, Bool.and_eq_true, decide_eq_true_eq, UInt8.le_iff_toNat_le] at h ⊢
  exact ⟨h.1, h.2.trans (by decide)⟩

theorem isRunning_of_isBinary (b : UInt8) (h : isBinary b = true) : isRunning b = true := by
  simp only [isBinary, Bool.or_eq_true, decide_eq_true_eq] at h
  rcases h with rfl | rfl <;> decide +kernel

/-! ## Runs of digits -/

section Digits

variable {p : UInt8 → Bool} (hp : ∀ b, p b = true → isRunning b = true)

include hp

theorem opens_stretch (src : Bytes) : opens p (stretch src) = opens p src := by
  cases src with
  | nil => rfl
  | cons b rest =>
    cases hb : isRunning b with
    | true => rw [stretch_cons_of_pos hb]; rfl
    | false =>
      have hpb : p b ≠ true := fun h => by simp [hp b h] at hb
      rw [stretch_cons_of_neg hb]
      simpa [opens] using hpb

theorem groups_stretch (src : Bytes) : groups p (stretch src) = groups p src := by
  induction src with
  | nil => rfl
  | cons b rest ih =>
    cases hb : isRunning b with
    | true => rw [stretch_cons_of_pos hb, groups, groups, ih, opens_stretch hp]
    | false =>
      have hpb : p b = false := by
        by_contra h
        simp [hp b (by simpa using h)] at hb
      have hne : b ≠ 0x5F := by
        rintro rfl
        exact absurd hb (by decide +kernel)
      rw [stretch_cons_of_neg hb]
      simp [groups, hpb, hne]

theorem digits_stretch (src : Bytes) : digits p (stretch src) = digits p src := by
  rw [digits, digits, opens_stretch hp, groups_stretch hp]

omit hp in
theorem groups_le (src : Bytes) : groups p src ≤ src.length := by
  induction src with
  | nil => exact Nat.le_refl 0
  | cons b rest ih =>
    rw [groups, List.length_cons]
    split
    · exact Nat.succ_le_succ ih
    · exact Nat.zero_le _

theorem groups_le_stretch (src : Bytes) : groups p src ≤ (stretch src).length := by
  rw [← groups_stretch hp]
  exact groups_le _

omit hp in
theorem digits_le (src : Bytes) : digits p src ≤ src.length := by
  rw [digits]
  split
  · exact groups_le src
  · exact Nat.zero_le _

theorem digits_le_stretch (src : Bytes) : digits p src ≤ (stretch src).length := by
  rw [digits]
  split
  · exact groups_le_stretch hp src
  · exact Nat.zero_le _

/-- A byte of the class is one of the run. -/
theorem one_le_stretch {src : Bytes} (h : opens p src = true) : 1 ≤ (stretch src).length := by
  cases src with
  | nil => cases h
  | cons b rest =>
    rw [stretch_cons_of_pos (hp b h)]
    exact Nat.succ_pos _

end Digits

/-! ## Exponents and points -/

theorem isRunning_of_sign (b : UInt8) (h : (decide (b = 0x2B) || decide (b = 0x2D)) = true) :
    isRunning b = true := by
  simp only [Bool.or_eq_true, decide_eq_true_eq] at h
  rcases h with rfl | rfl <;> decide +kernel

theorem isRunning_of_point (b : UInt8) (h : decide (b = 0x2E) = true) : isRunning b = true := by
  obtain rfl := of_decide_eq_true h
  decide +kernel

theorem point_stretch (src : Bytes) : point (stretch src) = point src :=
  opens_stretch isRunning_of_point src

section Exponent

variable {lower upper : UInt8} (hl : isRunning lower = true) (hu : isRunning upper = true)

include hl hu

theorem exponent_stretch (src : Bytes) :
    exponent lower upper (stretch src) = exponent lower upper src := by
  cases src with
  | nil => rfl
  | cons b rest =>
    cases hb : isRunning b with
    | false =>
      have hne : b ≠ lower ∧ b ≠ upper := by
        constructor <;> (rintro rfl; simp_all)
      rw [stretch_cons_of_neg hb]
      simp [exponent, hne]
    | true =>
      have hsign := opens_stretch (p := fun c => c = 0x2B || c = 0x2D) isRunning_of_sign rest
      have hdrop : ∀ n ≤ (stretch rest).length, digits isDecimal ((stretch rest).drop n) =
          digits isDecimal (rest.drop n) := by
        intro n hn
        rw [← stretch_drop hn, digits_stretch isRunning_of_isDecimal]
      rw [stretch_cons_of_pos hb]
      simp only [exponent, hsign]
      split
      · rw [hdrop]
        split
        · next h => exact one_le_stretch isRunning_of_sign h
        · exact Nat.zero_le _
      · rfl

omit hl hu in
theorem exponent_le (src : Bytes) : exponent lower upper src ≤ src.length := by
  cases src with
  | nil => exact Nat.le_refl 0
  | cons b rest =>
    simp only [exponent, List.length_cons]
    generalize (if opens (fun c => c = 0x2B || c = 0x2D) rest = true then 1 else 0) = sign
    have hle := digits_le (p := isDecimal) (rest.drop sign)
    rw [List.length_drop] at hle
    split
    · split <;> omega
    · exact Nat.zero_le _

end Exponent

/-! ## Forms -/

/-- A letter that tells the base of a number after a leading zero. -/
def isBase (b : UInt8) : Bool :=
  b = 0x78 || b = 0x58 || b = 0x6F || b = 0x4F || b = 0x62 || b = 0x42

/-- What of a text is looked at for a number. -/
def reach (src : Bytes) : Bytes :=
  match src with
  | b :: c :: more => if b = 0x30 && isBase c then b :: c :: stretch more else stretch src
  | _ => stretch src

/-- A number is looked for either behind the letter for its base or in the run. -/
theorem reach_cases (src : Bytes) :
    (∃ c more, src = 0x30 :: c :: more ∧ isBase c = true ∧ reach src = 0x30 :: c :: stretch more) ∨
      reach src = stretch src ∧ ∀ c more, src = 0x30 :: c :: more → isBase c = false := by
  match src with
  | [] => exact .inr ⟨rfl, fun c more h => nomatch h⟩
  | [b] => exact .inr ⟨rfl, fun c more h => nomatch h⟩
  | b :: c :: more =>
    rw [reach]
    split
    · next h =>
      obtain ⟨hb, hc⟩ := Bool.and_eq_true_iff.mp h
      obtain rfl := of_decide_eq_true hb
      exact .inl ⟨c, more, rfl, hc, rfl⟩
    · next h =>
      refine .inr ⟨rfl, fun d more' heq => ?_⟩
      cases heq
      simpa using h

theorem stretch_reach (src : Bytes) : stretch (reach src) = stretch src := by
  rcases reach_cases src with ⟨c, more, rfl, -, hreach⟩ | ⟨hreach, -⟩
  · rw [hreach]
    exact stretch_cons_congr _ (stretch_cons_congr _ (stretch_stretch _))
  · rw [hreach, stretch_stretch]

theorem decimalFloats_stretch (src : Bytes) : decimalFloats (stretch src) = decimalFloats src := by
  have hdigits := digits_stretch isRunning_of_isDecimal src
  have hwhole := digits_le_stretch isRunning_of_isDecimal src
  have hexponent : ∀ n ≤ (stretch src).length, exponent 0x65 0x45 ((stretch src).drop n) =
      exponent 0x65 0x45 (src.drop n) := by
    intro n hn
    rw [← stretch_drop hn, exponent_stretch (by decide +kernel) (by decide +kernel)]
  unfold decimalFloats
  dsimp only
  rw [hdigits, ← stretch_drop hwhole, point_stretch,
    exponent_stretch (by decide +kernel) (by decide +kernel)]
  congr 1
  split
  · next hpoint =>
    have hone : 1 ≤ (stretch (src.drop (digits isDecimal src))).length :=
      one_le_stretch isRunning_of_point hpoint
    have hplaces : digits isDecimal ((stretch (src.drop (digits isDecimal src))).drop 1) =
        digits isDecimal ((src.drop (digits isDecimal src)).drop 1) := by
      rw [← stretch_drop hone, digits_stretch isRunning_of_isDecimal]
    have hle := digits_le_stretch isRunning_of_isDecimal ((src.drop (digits isDecimal src)).drop 1)
    have hlen : (stretch ((src.drop (digits isDecimal src)).drop 1)).length =
        (stretch src).length - digits isDecimal src - 1 := by
      rw [stretch_drop hone, stretch_drop hwhole, List.length_drop, List.length_drop]
    rw [stretch_drop hwhole, List.length_drop] at hone
    rw [hplaces]
    split
    · rfl
    · rw [hexponent _ (by omega)]
  · rfl

/-- The digits of a hexadecimal number before its exponent, with and without the places behind the
point. -/
def mantissas (src : Bytes) : List Nat :=
  let whole := groups isHex src
  let places :=
    if point (src.drop whole) then
      let n := digits isHex (src.drop (whole + 1))
      if whole = 0 && n = 0 then [] else [whole + 1 + n]
    else []
  places ++ (if whole = 0 then [] else [whole])

theorem hexFloats_cons (b c : UInt8) (rest : Bytes) :
    hexFloats (b :: c :: rest) =
      if b = 0x30 && (c = 0x78 || c = 0x58) then
        (mantissas rest).filterMap fun m =>
          let e := exponent 0x70 0x50 (rest.drop m)
          if e = 0 then none else some (2 + m + e)
      else [] :=
  rfl

theorem mantissas_stretch (src : Bytes) : mantissas (stretch src) = mantissas src := by
  have hwhole := groups_le_stretch isRunning_of_isHex src
  unfold mantissas
  dsimp only
  rw [groups_stretch isRunning_of_isHex, ← stretch_drop hwhole, point_stretch]
  congr 1
  split
  · next hpoint =>
    have hone : 1 ≤ (stretch (src.drop (groups isHex src))).length :=
      one_le_stretch isRunning_of_point hpoint
    rw [stretch_drop hwhole, List.length_drop] at hone
    rw [← stretch_drop (show groups isHex src + 1 ≤ (stretch src).length by omega),
      digits_stretch isRunning_of_isHex]
  · rfl

theorem mantissas_le {src : Bytes} {m : Nat} (h : m ∈ mantissas src) : m ≤ src.length := by
  have hwhole := groups_le (p := isHex) src
  have hplaces := digits_le (p := isHex) (src.drop (groups isHex src + 1))
  rw [List.length_drop] at hplaces
  rcases List.mem_append.mp h with h | h
  · split at h
    · next hpoint =>
      have hlt : groups isHex src < src.length := by
        by_contra hge
        rw [List.drop_eq_nil_of_le (by omega)] at hpoint
        cases hpoint
      dsimp only at h
      split at h
      · cases h
      · rw [List.mem_singleton.mp h]
        omega
    · cases h
  · split at h
    · cases h
    · rw [List.mem_singleton.mp h]
      exact hwhole

/-- A number with a base in front goes on with the run behind the base. -/
theorem hexFloats_stretch (b c : UInt8) (rest : Bytes) :
    hexFloats (b :: c :: stretch rest) = hexFloats (b :: c :: rest) := by
  rw [hexFloats_cons, hexFloats_cons, mantissas_stretch]
  split
  · refine List.filterMap_congr fun m hm => ?_
    rw [← mantissas_stretch] at hm
    rw [← stretch_drop (mantissas_le hm), exponent_stretch (by decide +kernel) (by decide +kernel)]
  · rfl

theorem hexFloats_le {src : Bytes} {n : Nat} (h : n ∈ hexFloats src) : n ≤ src.length := by
  match src with
  | [] | [_] => cases h
  | b :: c :: rest =>
    rw [hexFloats_cons] at h
    split at h
    · obtain ⟨m, hm, hn⟩ := List.mem_filterMap.mp h
      have hle := mantissas_le hm
      have hexponent : exponent 0x70 0x50 (rest.drop m) ≤ _ := exponent_le (rest.drop m)
      rw [List.length_drop] at hexponent
      dsimp only at hn
      split at hn
      · cases hn
      · rw [List.length_cons, List.length_cons, ← Option.some.inj hn]
        omega
    · cases h

theorem decimalFloats_le {src : Bytes} {n : Nat} (h : n ∈ decimalFloats src) :
    n ≤ src.length := by
  have hwhole := digits_le (p := isDecimal) src
  have hplaces := digits_le (p := isDecimal) ((src.drop (digits isDecimal src)).drop 1)
  have hexponent : ∀ k, exponent 0x65 0x45 (src.drop k) ≤ src.length - k := by
    intro k
    rw [← List.length_drop]
    exact exponent_le _
  rw [List.length_drop, List.length_drop] at hplaces
  rcases List.mem_append.mp h with h | h
  · split at h
    · next hpoint =>
      have hlt : digits isDecimal src < src.length := by
        by_contra hge
        rw [List.drop_eq_nil_of_le (by omega)] at hpoint
        cases hpoint
      dsimp only at h
      split at h
      · cases h
      · rw [List.mem_singleton.mp h]
        have := hexponent (digits isDecimal src + 1 +
          digits isDecimal ((src.drop (digits isDecimal src)).drop 1))
        omega
    · cases h
  · dsimp only at h
    split at h
    · rw [List.mem_singleton.mp h]
      have := hexponent (digits isDecimal src)
      omega
    · cases h

/-! ## Integers -/

/-- The integers with a base in front that a text opens with behind a zero. -/
def based (rest : Bytes) : List Nat :=
  match rest with
  | c :: more =>
    (if (c = 0x78 || c = 0x58) && groups isHex more ≠ 0 then [2 + groups isHex more] else []) ++
      (if (c = 0x6F || c = 0x4F) && groups isOctal more ≠ 0 then [2 + groups isOctal more]
        else []) ++
      (if (c = 0x62 || c = 0x42) && groups isBinary more ≠ 0 then [2 + groups isBinary more]
        else [])
  | [] => []

theorem integers_cons (b : UInt8) (rest : Bytes) :
    integers (b :: rest) =
      if b = 0x30 then (1 + groups isOctal rest) :: based rest
      else if isDecimal b then [groups isDecimal (b :: rest)] else [] := by
  cases rest <;> rfl

theorem based_stretch (c : UInt8) (more : Bytes) :
    based (c :: stretch more) = based (c :: more) := by
  simp only [based]
  rw [groups_stretch isRunning_of_isHex, groups_stretch isRunning_of_isOctal,
    groups_stretch isRunning_of_isBinary]

theorem based_le {rest : Bytes} {n : Nat} (h : n ∈ based rest) : n ≤ rest.length + 1 := by
  cases rest with
  | nil => cases h
  | cons c more =>
    have hle : ∀ (p : UInt8 → Bool) (q : Bool),
        n ∈ (if q && groups p more ≠ 0 then [2 + groups p more] else []) →
          n ≤ (c :: more).length + 1 := by
      intro p q h
      split at h
      · have := groups_le (p := p) more
        rw [List.mem_singleton.mp h, List.length_cons]
        omega
      · cases h
    rcases List.mem_append.mp h with h | h
    · rcases List.mem_append.mp h with h | h
      · exact hle _ _ h
      · exact hle _ _ h
    · exact hle _ _ h

/-- Without a letter for it, there is no base. -/
theorem based_of_not_isBase {c : UInt8} (h : isBase c = false) (more : Bytes) :
    based (c :: more) = [] := by
  simp only [isBase, Bool.or_eq_false_iff, decide_eq_false_iff_not] at h
  simp [based, h]

theorem integers_le {src : Bytes} {n : Nat} (h : n ∈ integers src) : n ≤ src.length := by
  cases src with
  | nil => cases h
  | cons b rest =>
    rw [integers_cons] at h
    split at h
    · rcases List.mem_cons.mp h with rfl | h
      · have := groups_le (p := isOctal) rest
        rw [List.length_cons]
        omega
      · exact based_le h
    · split at h
      · rw [List.mem_singleton.mp h]
        exact groups_le _
      · cases h

theorem integers_reach (src : Bytes) : integers (reach src) = integers src := by
  rcases reach_cases src with ⟨c, more, rfl, -, hreach⟩ | ⟨hreach, hbase⟩
  · have hmore : stretch (c :: stretch more) = stretch (c :: more) :=
      stretch_cons_congr c (stretch_stretch more)
    rw [hreach, integers_cons, integers_cons, based_stretch, ← groups_stretch isRunning_of_isOctal,
      hmore, groups_stretch isRunning_of_isOctal]
    rfl
  · rw [hreach]
    cases src with
    | nil => rfl
    | cons b rest =>
      cases hb : isRunning b with
      | false =>
        have hdecimal : isDecimal b = false := by
          by_contra h
          rw [isRunning_of_isDecimal b (by simpa using h)] at hb
          cases hb
        have hzero : b ≠ 0x30 := by
          rintro rfl
          cases hdecimal
        rw [stretch_cons_of_neg hb, integers_cons, if_neg hzero, hdecimal]
        rfl
      | true =>
        have hnone : ∀ s, (∀ c more, s = c :: more → ∃ more', rest = c :: more') → b = 0x30 →
            based s = [] := by
          rintro s hs rfl
          cases s with
          | nil => rfl
          | cons c more =>
            obtain ⟨more', rfl⟩ := hs c more rfl
            exact based_of_not_isBase (hbase c more' rfl) more
        have hrest : ∀ c more, stretch rest = c :: more → ∃ more', rest = c :: more' := by
          intro c more h
          obtain ⟨t, ht⟩ := List.takeWhile_prefix isRunning (l := rest)
          rw [← ht]
          exact ⟨more ++ t, by rw [← List.cons_append, ← h]; rfl⟩
        rw [stretch_cons_of_pos hb, integers_cons, integers_cons,
          groups_stretch isRunning_of_isOctal, ← stretch_cons_of_pos hb,
          groups_stretch isRunning_of_isDecimal]
        split
        · next hzero =>
          rw [hnone _ hrest hzero, hnone rest (fun c more h => ⟨more, h⟩) hzero]
        · rfl

/-! ## All forms -/

theorem decimalFloats_reach (src : Bytes) : decimalFloats (reach src) = decimalFloats src := by
  rw [← decimalFloats_stretch, stretch_reach, decimalFloats_stretch]

theorem hexFloats_reach (src : Bytes) : hexFloats (reach src) = hexFloats src := by
  rcases reach_cases src with ⟨c, more, rfl, -, hreach⟩ | ⟨hreach, hbase⟩
  · rw [hreach, hexFloats_stretch]
  · have hnone : ∀ s, (∀ b c more, s = b :: c :: more → ∃ more', src = b :: c :: more') →
        hexFloats s = [] := by
      intro s hs
      match s with
      | [] | [_] => rfl
      | b :: c :: more =>
        obtain ⟨more', hsrc⟩ := hs b c more rfl
        rw [hexFloats_cons, if_neg]
        intro h
        simp only [Bool.and_eq_true, Bool.or_eq_true, decide_eq_true_eq] at h
        obtain ⟨rfl, hc⟩ := h
        have := hbase c more' hsrc
        rcases hc with rfl | rfl <;> cases this
    rw [hreach, hnone src fun b c more h => ⟨more, h⟩, hnone]
    intro b c more h
    obtain ⟨t, ht⟩ := List.takeWhile_prefix isRunning (l := src)
    rw [← ht]
    exact ⟨more ++ t, by rw [← List.cons_append, ← List.cons_append, ← h]; rfl⟩

/-- What stands in reach is told by the bytes in reach. -/
theorem opens_drop_reach {p : UInt8 → Bool} (hp : ∀ b, p b = true → isRunning b = true)
    {src : Bytes} {n : Nat} (h : n ≤ (reach src).length) :
    opens p ((reach src).drop n) = opens p (src.drop n) := by
  rcases reach_cases src with ⟨c, more, rfl, -, hreach⟩ | ⟨hreach, -⟩
  · rw [hreach] at h ⊢
    match n with
    | 0 | 1 => rfl
    | n + 2 =>
      rw [List.length_cons, List.length_cons] at h
      rw [List.drop_succ_cons, List.drop_succ_cons, List.drop_succ_cons, List.drop_succ_cons,
        ← stretch_drop (by omega), opens_stretch hp]
  · rw [hreach] at h ⊢
    rw [← stretch_drop h, opens_stretch hp]

theorem forms_reach (src : Bytes) : forms (reach src) = forms src := by
  have hdigits : digits isDecimal (reach src) = digits isDecimal src := by
    rw [← digits_stretch isRunning_of_isDecimal, stretch_reach,
      digits_stretch isRunning_of_isDecimal]
  have hints := integers_reach src
  have hdecimals := decimalFloats_reach src
  have hhexes := hexFloats_reach src
  unfold forms
  dsimp only
  rw [hints, hdecimals, hhexes, hdigits]
  refine congrArg (_ ++ List.map _ ·) (List.filter_congr fun n hn => ?_)
  refine opens_drop_reach (fun b hb => ?_) ?_
  · obtain rfl := of_decide_eq_true hb
    decide +kernel
  · -- no form is longer than the text that it is read off
    rcases List.mem_append.mp hn with hn | hn
    · rcases List.mem_append.mp hn with hn | hn
      · exact integers_le (hints ▸ hn)
      · rcases List.mem_append.mp hn with hn | hn
        · exact decimalFloats_le (hdecimals ▸ hn)
        · exact hexFloats_le (hhexes ▸ hn)
    · split at hn
      · cases hn
      · rw [List.mem_singleton.mp hn, ← hdigits]
        exact digits_le _

/-- Which number a text opens with is told by the bytes in reach. -/
theorem longest?_reach (src : Bytes) : longest? (reach src) = longest? src := by
  rw [longest?, longest?, forms_reach]

end Number

end CtxThread.Code
