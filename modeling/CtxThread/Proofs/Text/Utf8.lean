import CtxThread.Text.Utf8

/-!
# Reading plain characters back

A byte string that reads as a text of plain ASCII characters consists of the bytes of these
characters: longer forms never stand for an ASCII character.

## Main statements

- `Utf8.bytes_of_decodeChars`: the bytes that read as plain characters
- `Utf8.le_of_mem_followers`: the bytes of a longer form are no ASCII characters
- `Utf8.ofString_decode`: reading and writing ASCII bytes leaves them as they are
-/

namespace CtxThread.Utf8

/-- A character of one byte other than the null character. -/
def isPlain (c : Char) : Bool := 0 < c.toNat && c.toNat < 0x80

/-- Reading on never makes the value of a character smaller. -/
theorem le_foldl_value (v : Nat) (ds : Bytes) :
    v ≤ ds.foldl (fun v d => v * 64 + d.toNat % 64) v := by
  induction ds generalizing v with
  | nil => exact Nat.le_refl v
  | cons d ds ih =>
    have h := ih (v * 64 + d.toNat % 64)
    rw [List.foldl_cons]
    omega

/-- The first two bytes of a longer form leave no room for a value below 128. -/
theorem value_ge {b c lo hi : UInt8} {n : Nat} (h : followers b = some (lo, hi, n)) (hlo : lo ≤ c)
    (hhi : c ≤ hi) {tail : Bytes} (htail : tail.length = n - 1) :
    128 ≤ (c :: tail).foldl (fun v d => v * 64 + d.toNat % 64) (leadBits b n) := by
  -- a form of two bytes has a payload in its lead byte, and a longer one in its first two
  have hfront : 128 ≤ leadBits b n * 64 + c.toNat % 64 ∨
      2 ≤ leadBits b n * 64 + c.toNat % 64 ∧ 2 ≤ n := by
    unfold followers at h
    unfold leadBits
    simp only [Bool.and_eq_true, decide_eq_true_eq, UInt8.le_iff_toNat_le, ← UInt8.toNat_inj]
      at h hlo hhi
    repeat' split at h
    all_goals
      cases h
    all_goals
      simp only [UInt8.reduceToNat, Nat.reduceShiftRight] at *
      omega
  rw [List.foldl_cons]
  rcases hfront with hfront | ⟨hfront, hn⟩
  · exact Nat.le_trans hfront (le_foldl_value _ tail)
  · cases tail with
    | nil =>
      rw [List.length_nil] at htail
      omega
    | cons d ds =>
      rw [List.foldl_cons]
      have h := le_foldl_value ((leadBits b n * 64 + c.toNat % 64) * 64 + d.toNat % 64) ds
      omega

theorem toNat_ofNat {n : Nat} (h : n.isValidChar) : (Char.ofNat n).toNat = n := by
  rw [Char.ofNat, dif_pos h]
  rfl

/-- A value past the ASCII range is the value of no plain character. -/
theorem isPlain_ofNat_of_ge {n : Nat} (h : 128 ≤ n) : isPlain (Char.ofNat n) = false := by
  by_cases hn : n.isValidChar
  · simp only [isPlain, toNat_ofNat hn, Bool.and_eq_false_iff, decide_eq_false_iff_not]
    omega
  · rw [Char.ofNat, dif_neg hn]
    rfl

/-- A byte string opens with a plain character only if its first byte is that character. -/
theorem first_of_isPlain {b : UInt8} {rest : Bytes}
    (h : isPlain ((first b rest).char.getD replacement) = true) :
    first b rest = ⟨some (Char.ofNat b.toNat), 1⟩ := by
  by_cases hb : b < 0x80
  · rw [first, if_pos hb]
  · exfalso
    have hreplacement : isPlain replacement = false := by decide
    rw [first, if_neg hb] at h
    split at h
    · exact absurd h (by decide)
    · next lo hi n hfollow =>
      split at h
      · exact absurd h (by decide)
      · next c more =>
        split at h
        · next hc =>
          simp only [Bool.and_eq_true, decide_eq_true_eq] at hc
          dsimp only at h
          split at h
          · next htail =>
            rw [Option.getD_some, isPlain_ofNat_of_ge (value_ge hfollow hc.1 hc.2 htail)] at h
            cases h
          · rw [Option.getD_none, hreplacement] at h
            cases h
        · exact absurd h (by decide)

/-- The bytes that read as plain characters are those of the characters. -/
theorem bytes_of_decodeChars {src : Bytes} (h : (decodeChars src).all isPlain = true) :
    src = (decodeChars src).map fun c => UInt8.ofNat c.toNat := by
  unfold decodeChars at h ⊢
  generalize hfuel : src.length = fuel at h ⊢
  induction fuel generalizing src with
  | zero =>
    rw [List.length_eq_zero_iff.mp hfuel]
    rfl
  | succ fuel ih =>
    cases src with
    | nil => cases hfuel
    | cons b rest =>
      simp only [openings, List.map_cons, List.all_cons, Bool.and_eq_true] at h ⊢
      have hfirst := first_of_isPlain h.1
      rw [hfirst] at h ⊢
      have hrest := ih (Nat.succ.inj hfuel) h.2
      have hb : b = UInt8.ofNat (Char.ofNat b.toNat).toNat := by
        have hlt := b.toNat_lt
        rw [toNat_ofNat (.inl (by omega)), UInt8.ofNat_toNat]
      simp only [Option.getD_some, Nat.sub_self, List.drop_zero] at hrest ⊢
      rw [← hb, ← hrest]

/-- The bytes of a character after its first lie past the ASCII range. -/
theorem le_of_mem_followers {b : UInt8} {rest : Bytes} {c : Char}
    (h : (first b rest).char = some c) :
    ∀ d ∈ rest.take ((first b rest).width - 1), 0x80 ≤ d := by
  by_cases hb : b < 0x80
  · simp [first, hb]
  · rw [first, if_neg hb] at h ⊢
    cases hfollow : followers b with
    | none => simp
    | some f =>
      obtain ⟨lo, hi, n⟩ := f
      have hlo : 0x80 ≤ lo ∧ 0 < n := by
        unfold followers at hfollow
        repeat' split at hfollow
        all_goals
          cases hfollow
        all_goals
          decide
      rw [hfollow] at h
      cases rest with
      | nil => simp
      | cons d more =>
        dsimp only at h ⊢
        split at h
        · next hd =>
          simp only [Bool.and_eq_true, decide_eq_true_eq] at hd
          split at h
          · next htail =>
            -- the whole tail continues the character, so nothing of it is cut off
            have hall : ∀ x ∈ more.take (n - 1), isContinuation x = true := by
              have hlen : (more.take (n - 1)).length ≤
                  ((more.take (n - 1)).takeWhile isContinuation).length := by
                rw [htail, List.length_take]
                omega
              have heq := (List.takeWhile_prefix isContinuation).eq_of_length_le hlen
              rw [← heq]
              exact List.all_eq_true.mp List.all_takeWhile
            rw [if_pos (by simp [hd]), if_pos htail]
            obtain ⟨k, rfl⟩ : ∃ k, n = k + 1 := ⟨n - 1, by omega⟩
            intro x hx
            rw [show k + 1 + 1 - 1 = k + 1 from rfl, List.take_succ_cons] at hx
            rcases List.mem_cons.mp hx with rfl | hx
            · exact UInt8.le_trans hlo.1 hd.1
            · have := hall x hx
              simp only [isContinuation, Bool.and_eq_true, decide_eq_true_eq] at this
              exact this.1
          · cases h
        · cases h

/-- Bytes of the ASCII range read as one character each. -/
theorem decodeChars_of_ascii {bs : Bytes} (h : ∀ b ∈ bs, b < 0x80) :
    decodeChars bs = bs.map fun b => Char.ofNat b.toNat := by
  unfold decodeChars
  induction bs with
  | nil => rfl
  | cons b rest ih =>
    have hb : b < 0x80 := h b List.mem_cons_self
    have hfirst : first b rest = ⟨some (Char.ofNat b.toNat), 1⟩ := by rw [first, if_pos hb]
    rw [List.length_cons, openings, hfirst]
    exact congrArg (_ :: ·) (ih fun c hc => h c (List.mem_cons_of_mem b hc))

/-- Bytes of the ASCII range are those of the text that they read as. -/
theorem ofString_decode {bs : Bytes} (h : ∀ b ∈ bs, b < 0x80) :
    Bytes.ofString (decode bs) = bs := by
  have hencode : ∀ b ∈ bs, String.utf8EncodeChar (Char.ofNat b.toNat) = [b] := by
    intro b hb
    have hlt : b.toNat < 128 := UInt8.lt_iff_toNat_lt.mp (h b hb)
    have hval : (Char.ofNat b.toNat).val.toNat = b.toNat := toNat_ofNat (.inl (by omega))
    rw [String.utf8EncodeChar, hval, if_pos (by omega), UInt8.ofNat_toNat]
  rw [decode, decodeChars_of_ascii h, Bytes.ofString]
  simp only [String.toUTF8_eq_toByteArray, String.toByteArray_ofList, List.utf8Encode]
  rw [List.flatMap_map]
  have hflat : (bs.flatMap fun b => String.utf8EncodeChar (Char.ofNat b.toNat)) = bs := by
    rw [List.flatMap_def, List.map_congr_left hencode, ← List.flatMap_def]
    exact List.flatMap_singleton' bs
  rw [hflat]
  simp

end CtxThread.Utf8
