import CtxThread.Text.Bytes

/-!
# Offsets and slices

Facts about the parts of a text between two offsets, and about the first line end after one.
-/

namespace CtxThread.Bytes

theorem length_slice (src : Bytes) (start stop : Nat) :
    (src.slice start stop).length = min stop src.length - start := by
  simp only [slice, List.length_drop, List.length_take]

theorem getElem?_slice (src : Bytes) (start stop i : Nat) :
    (src.slice start stop)[i]? = if start + i < stop then src[start + i]? else none := by
  simp only [slice, List.getElem?_drop, List.getElem?_take]

/-- A byte of a slice stands in the text between the two offsets. -/
theorem exists_getElem?_of_mem_slice {src : Bytes} {start stop : Nat} {b : UInt8}
    (hb : b ∈ src.slice start stop) : ∃ i, start ≤ i ∧ i < stop ∧ src[i]? = some b := by
  obtain ⟨i, hi⟩ := List.mem_iff_getElem?.mp hb
  rw [getElem?_slice] at hi
  split at hi
  · exact ⟨start + i, by omega, by assumption, hi⟩
  · cases hi

/-- A byte of the text between two offsets is in the slice. -/
theorem mem_slice_of_getElem? {src : Bytes} {start stop i : Nat} {b : UInt8}
    (hstart : start ≤ i) (hstop : i < stop) (hb : src[i]? = some b) :
    b ∈ src.slice start stop := by
  apply List.mem_iff_getElem?.mpr
  refine ⟨i - start, ?_⟩
  rw [getElem?_slice, if_pos (by omega), show start + (i - start) = i by omega, hb]

theorem offset_of_nonneg {src : Bytes} {i : Int} (h0 : 0 ≤ i) (hi : i ≤ src.length) :
    src.offset i = i.toNat := by
  rw [offset, if_neg (by omega)]
  omega

/-- The text from one position on, cut at a later position. -/
theorem suffix_eq_between_append {src : Bytes} {a b : Int} (h0 : 0 ≤ a) (hab : a ≤ b)
    (hb : b ≤ src.length) : src.suffix a = src.between a b ++ src.suffix b := by
  have hoff : src.offset a = a.toNat := offset_of_nonneg h0 (by omega)
  have hoff' : src.offset b = b.toNat := offset_of_nonneg (by omega) hb
  have hle : a.toNat ≤ b.toNat := by omega
  rw [suffix, suffix, between, slice, hoff, hoff']
  calc src.drop a.toNat
      = (src.take b.toNat ++ src.drop b.toNat).drop a.toNat := by rw [List.take_append_drop]
    _ = (src.take b.toNat).drop a.toNat ++ src.drop b.toNat :=
        List.drop_append_of_le_length (by rw [List.length_take]; omega)

theorem length_between {src : Bytes} {a b : Int} (h0 : 0 ≤ a) (hab : a ≤ b)
    (hb : b ≤ src.length) : ((src.between a b).length : Int) = b - a := by
  rw [between, length_slice, offset_of_nonneg h0 (by omega), offset_of_nonneg (by omega) hb]
  omega

/-- The text between two positions, cut at a position between them. -/
theorem between_append {src : Bytes} {a b c : Int} (h0 : 0 ≤ a) (hab : a ≤ b) (hbc : b ≤ c)
    (hc : c ≤ src.length) : src.between a c = src.between a b ++ src.between b c := by
  have h : src.between a c ++ src.suffix c =
      (src.between a b ++ src.between b c) ++ src.suffix c := by
    rw [← suffix_eq_between_append h0 (by omega) hc, List.append_assoc,
      ← suffix_eq_between_append (by omega) hbc hc,
      ← suffix_eq_between_append h0 hab (by omega)]
  exact List.append_cancel_right h

theorem between_natCast {src : Bytes} {a b : Nat} (hab : a ≤ b) (hb : b ≤ src.length) :
    src.between a b = src.slice a b := by
  rw [between, offset_of_nonneg (by omega) (by omega), offset_of_nonneg (by omega) (by omega)]
  rfl

theorem between_self (src : Bytes) (i : Int) : src.between i i = [] := by
  rw [between, slice, List.drop_eq_nil_of_le]
  rw [List.length_take]
  omega

theorem slice_self (src : Bytes) (i : Nat) : src.slice i i = [] :=
  List.drop_eq_nil_of_le (by rw [List.length_take]; omega)

theorem between_zero {src : Bytes} {n : Nat} (hn : n ≤ src.length) :
    src.between 0 n = src.take n :=
  between_natCast (Nat.zero_le n) hn

theorem suffix_natCast {src : Bytes} {n : Nat} (hn : n ≤ src.length) : src.suffix n = src.drop n := by
  rw [suffix, offset_of_nonneg (by omega) (by omega)]
  rfl

/-- The text from one offset on, cut at a later one. -/
theorem drop_eq_slice_append {src : Bytes} {a b : Nat} (hab : a ≤ b) (hb : b ≤ src.length) :
    src.drop a = src.slice a b ++ src.drop b := by
  have h : src.suffix a = src.between a b ++ src.suffix b :=
    suffix_eq_between_append (by omega) (by omega) (by omega)
  rwa [between_natCast hab hb, suffix_natCast (Nat.le_trans hab hb), suffix_natCast hb] at h

/-- The text between two offsets, cut at an offset between them. -/
theorem slice_append {src : Bytes} {a b c : Nat} (hab : a ≤ b) (hbc : b ≤ c)
    (hc : c ≤ src.length) : src.slice a c = src.slice a b ++ src.slice b c := by
  have h : src.between a c = src.between a b ++ src.between b c :=
    between_append (by omega) (by omega) (by omega) (by omega)
  rwa [between_natCast (Nat.le_trans hab hbc) hc, between_natCast hab (Nat.le_trans hbc hc),
    between_natCast hbc hc] at h

/-- A slice ends with the byte in front of its end. -/
theorem slice_succ {src : Bytes} {a i : Nat} {b : UInt8} (ha : a ≤ i) (hi : src[i]? = some b) :
    src.slice a (i + 1) = src.slice a i ++ [b] := by
  obtain ⟨hlt, _⟩ := List.getElem?_eq_some_iff.mp hi
  rw [slice, List.take_add_one, hi, Option.toList_some, slice,
    List.drop_append_of_le_length (by rw [List.length_take]; omega)]

@[simp] theorem ofString_append (s t : String) : ofString (s ++ t) = ofString s ++ ofString t := by
  simp [ofString]

/-! ## Line ends -/

theorem getElem?_of_indexOf? {b : UInt8} {src : Bytes} {i : Nat} (h : indexOf? b src = some i) :
    src[i]? = some b := by
  induction src generalizing i with
  | nil => cases h
  | cons c rest ih =>
    rw [indexOf?] at h
    split at h
    · next hc =>
      cases h
      rw [hc]
      rfl
    · obtain ⟨j, hj, rfl⟩ := Option.map_eq_some_iff.mp h
      rw [List.getElem?_cons_succ]
      exact ih hj

theorem indexOf?_eq_none_iff {b : UInt8} {src : Bytes} : indexOf? b src = none ↔ b ∉ src := by
  induction src with
  | nil => simp [indexOf?]
  | cons c rest ih =>
    rw [indexOf?]
    split
    · next hc => simp [hc]
    · next hc => simp [ih, Ne.symm hc]

/-- The first of the bytes that are `b` is found. -/
theorem indexOf?_le {b : UInt8} {src : Bytes} {n i : Nat} (h : indexOf? b src = some n)
    (hi : src[i]? = some b) : n ≤ i := by
  induction src generalizing n i with
  | nil => cases h
  | cons c rest ih =>
    rw [indexOf?] at h
    split at h
    · cases h
      exact Nat.zero_le i
    · next hc =>
      obtain ⟨m, hm, rfl⟩ := Option.map_eq_some_iff.mp h
      cases i with
      | zero => exact absurd (Option.some.inj hi) hc
      | succ i => exact Nat.succ_le_succ (ih hm hi)

/-- A line end that is found is one, and not before the offset it is looked for from. -/
theorem getElem?_of_lineEnd? {src : Bytes} {pos eol : Nat} (h : src.lineEnd? pos = some eol) :
    pos ≤ eol ∧ src[eol]? = some lineFeed := by
  obtain ⟨i, hi, rfl⟩ := Option.map_eq_some_iff.mp h
  have hget := getElem?_of_indexOf? hi
  rw [List.getElem?_drop] at hget
  exact ⟨Nat.le_add_right pos i, hget⟩

/-- No line end comes before the one that is found. -/
theorem lineEnd?_le {src : Bytes} {pos eol i : Nat} (h : src.lineEnd? pos = some eol)
    (hpos : pos ≤ i) (hi : src[i]? = some lineFeed) : eol ≤ i := by
  obtain ⟨n, hn, rfl⟩ := Option.map_eq_some_iff.mp h
  have hget : (src.drop pos)[i - pos]? = some lineFeed := by
    rw [List.getElem?_drop, Nat.add_sub_cancel' hpos, hi]
  have := indexOf?_le hn hget
  omega

/-- A line end at or after an offset is not overlooked. -/
theorem exists_lineEnd? {src : Bytes} {pos i : Nat} (hpos : pos ≤ i)
    (hi : src[i]? = some lineFeed) : ∃ eol, src.lineEnd? pos = some eol := by
  cases h : src.lineEnd? pos with
  | some eol => exact ⟨eol, rfl⟩
  | none =>
    rw [lineEnd?, Option.map_eq_none_iff, indexOf?_eq_none_iff] at h
    refine absurd (List.mem_iff_getElem?.mpr ⟨i - pos, ?_⟩) h
    rw [List.getElem?_drop, Nat.add_sub_cancel' hpos, hi]

end CtxThread.Bytes
