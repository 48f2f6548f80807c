import CtxThread.Proofs.Edit.Splice
import Mathlib.Data.Prod.Lex
import Mathlib.Order.Nat

/-!
# The order in which edits are applied

Edits are taken by their start, then by their stop, and those of one span by their place in the
list. Applied at once they do what they do one at a time from the last to the first, and two of them
overlap exactly if, in that order, some edit starts before the one in front of it ends. The list
they are given in says no more than how the edits of one span follow each other.

## Main definitions

- `Edit.rank`: where an edit with its place in the list comes in the order
- `Edit.ofSpan`: the edits of one span, in the order of the list
- `Edit.applyTo`: a text with one edit applied to it

## Main statements

- `Edit.splice_one_by_one`: edits at once, edits one at a time, and when they overlap
- `Edit.splice_eq_of_perm`: lists with the same edits of each span are applied alike
-/

namespace CtxThread.Edit

/-- The edits of one span, in the order of the list. -/
def ofSpan (start stop : Int) (es : List Edit) : List Edit :=
  es.filter fun e => e.start = start ∧ e.stop = stop

theorem mem_ofSpan {start stop : Int} {es : List Edit} {e : Edit} :
    e ∈ ofSpan start stop es ↔ e ∈ es ∧ e.start = start ∧ e.stop = stop := by
  simp [ofSpan]

/-- The text with one edit applied to it. -/
def applyTo (src : Bytes) (e : Edit) : Bytes :=
  src.between 0 e.start ++ Bytes.ofString e.text ++ src.suffix e.stop

/-! ## Lists in order -/

section Sorted

variable {es ws : List Edit}

/-- Of two edits that come before each other neither does, and they have the same span. -/
theorem span_eq_of_le {a b : Edit} (hab : le a b = true) (hba : le b a = true) :
    a.start = b.start ∧ a.stop = b.stop := by
  simp only [le, Bool.or_eq_true, decide_eq_true_eq, Bool.and_eq_true] at hab hba
  omega

/-- Lists in order that hold the same edits, those of each span one after the other alike, are the
same. -/
theorem eq_of_sorted (hperm : es.Perm ws) (hes : es.Pairwise fun a b => le a b = true)
    (hws : ws.Pairwise fun a b => le a b = true)
    (hsame : ∀ start stop, ofSpan start stop es = ofSpan start stop ws) : es = ws := by
  induction es generalizing ws with
  | nil => exact hperm.nil_eq
  | cons a es ih =>
    cases ws with
    | nil => exact hperm.eq_nil
    | cons b ws =>
      obtain ⟨ha, hes⟩ := List.pairwise_cons.mp hes
      obtain ⟨hb, hws'⟩ := List.pairwise_cons.mp hws
      -- each of the two comes before the other, so both are the first of one span
      have hspan : a.start = b.start ∧ a.stop = b.stop := by
        rcases List.mem_cons.mp (hperm.mem_iff.mp List.mem_cons_self) with rfl | hmem
        · exact ⟨rfl, rfl⟩
        · rcases List.mem_cons.mp (hperm.mem_iff.mpr List.mem_cons_self) with rfl | hmem'
          · exact ⟨rfl, rfl⟩
          · exact span_eq_of_le (ha b hmem') (hb a hmem)
      have hfirst := hsame b.start b.stop
      rw [ofSpan, ofSpan, List.filter_cons_of_pos (by simpa using hspan),
        List.filter_cons_of_pos (by simp)] at hfirst
      obtain rfl := (List.cons.inj hfirst).1
      refine congrArg (a :: ·) (ih hperm.cons_inv hes hws' fun start stop => ?_)
      have hrest := hsame start stop
      rw [ofSpan, ofSpan, List.filter_cons, List.filter_cons] at hrest
      split at hrest
      · exact (List.cons.inj hrest).2
      · exact hrest

/-- Sorting keeps the order of the edits of one span. -/
theorem ofSpan_sort (start stop : Int) (es : List Edit) :
    ofSpan start stop (Order.sort le es) = ofSpan start stop es := by
  have hperm : (ofSpan start stop (Order.sort le es)).Perm (ofSpan start stop es) :=
    (sorted_edits es).1.filter _
  have hone : (ofSpan start stop es).Pairwise fun a b => le a b = true := by
    refine List.pairwise_of_forall_mem_list fun a ha b hb => ?_
    obtain ⟨_, hstart, hstop⟩ := mem_ofSpan.mp ha
    obtain ⟨_, hstart', hstop'⟩ := mem_ofSpan.mp hb
    simp only [le, Bool.or_eq_true, decide_eq_true_eq, Bool.and_eq_true]
    omega
  have hsub : (ofSpan start stop es).Sublist (Order.sort le es) := by
    rw [Order.sort_eq_insertionSort]
    exact List.sublist_insertionSort hone List.filter_sublist
  have hsub' : (ofSpan start stop es).Sublist (ofSpan start stop (Order.sort le es)) := by
    have := hsub.filter fun e => decide (e.start = start ∧ e.stop = stop)
    simpa only [ofSpan, List.filter_filter, Bool.and_self] using this
  exact (hsub'.eq_of_length hperm.length_eq.symm).symm

end Sorted

/-- Two lists that hold the same edits, those of each span in the same order, leave the same text or
the same overlap. -/
theorem splice_eq_of_perm {src : Bytes} {es es' : List Edit} (hperm : es.Perm es')
    (hsame : ∀ start stop, ofSpan start stop es = ofSpan start stop es') :
    splice src es = splice src es' := by
  obtain ⟨hsort, hsorted⟩ := sorted_edits es
  obtain ⟨hsort', hsorted'⟩ := sorted_edits es'
  have horder : Order.sort le es = Order.sort le es' := by
    refine eq_of_sorted (hsort.trans (hperm.trans hsort'.symm)) hsorted hsorted' ?_
    intro start stop
    rw [ofSpan_sort, ofSpan_sort]
    exact hsame start stop
  rw [splice, splice, horder]

/-- Two orders of planning, with edits past the end of the text and one that stops before it
starts, leave the same. -/
theorem splice_eq_of_perm_backward :
    splice (Bytes.ofString "abcdef") [⟨9, 9, "q"⟩, ⟨1, 1, "x"⟩, ⟨4, 2, "p"⟩, ⟨1, 1, "y"⟩] =
      splice (Bytes.ofString "abcdef") [⟨1, 1, "x"⟩, ⟨1, 1, "y"⟩, ⟨4, 2, "p"⟩, ⟨9, 9, "q"⟩] := by
  refine splice_eq_of_perm (by decide) fun start stop => ?_
  by_cases hx : start = 1
  · subst hx
    simp [ofSpan, List.filter_cons]
  · by_cases hp : start = 4
    · subst hp
      simp [ofSpan, List.filter_cons]
    · simp [ofSpan, List.filter_cons, Ne.symm hx, Ne.symm hp]

/-! ## One edit after the other -/

/-- Where an edit with its place in the list comes in the order: by its start, then by its stop,
then by its place. -/
def rank (r : Edit × Nat) : ℤ ×ₗ ℤ ×ₗ ℕ := toLex (r.1.start, toLex (r.1.stop, r.2))

theorem rank_lt_rank {a b : Edit × Nat} :
    rank a < rank b ↔ a.1.start < b.1.start ∨ a.1.start = b.1.start ∧
      (a.1.stop < b.1.stop ∨ a.1.stop = b.1.stop ∧ a.2 < b.2) := by
  simp only [rank, Prod.Lex.toLex_lt_toLex]

theorem zipIdx_pairwise (es : List Edit) : es.zipIdx.Pairwise fun a b => a.2 < b.2 := by
  rw [← List.pairwise_map, List.zipIdx_map_snd]
  exact List.pairwise_lt_range'

/-- The edits with their places can be put in the order of their ranks, and that is the order in
which they are applied. -/
theorem exists_ranked (es : List Edit) :
    ∃ rs : List (Edit × Nat), rs.Perm es.zipIdx ∧ (rs.Pairwise fun a b => rank a < rank b) ∧
      rs.map (·.1) = Order.sort le es := by
  have : Std.Total fun a b : Edit × Nat => rank a ≤ rank b := ⟨fun a b => le_total _ _⟩
  have : IsTrans (Edit × Nat) fun a b => rank a ≤ rank b := ⟨fun a b c => le_trans⟩
  obtain ⟨rs, hrs⟩ : ∃ rs, rs = es.zipIdx.insertionSort fun a b => rank a ≤ rank b := ⟨_, rfl⟩
  have hperm : rs.Perm es.zipIdx := hrs ▸ List.perm_insertionSort _ _
  have hranks : rs.Pairwise fun a b => rank a < rank b := by
    have hle : rs.Pairwise fun a b => rank a ≤ rank b := hrs ▸ List.pairwise_insertionSort _ _
    have hne : rs.Pairwise fun a b => a.2 ≠ b.2 :=
      hperm.symm.pairwise ((zipIdx_pairwise es).imp Nat.ne_of_lt) Ne.symm
    refine (hle.and hne).imp fun {a b} h => lt_of_le_of_ne h.1 fun heq => h.2 ?_
    simpa [rank] using congrArg (fun r => (ofLex (ofLex r).2).2) heq
  have hfst : es.zipIdx.map (·.1) = es := List.zipIdx_map_fst ..
  refine ⟨rs, hperm, hranks, ?_⟩
  obtain ⟨hsort, hsorted⟩ := sorted_edits es
  refine eq_of_sorted ?_ ?_ hsorted fun start stop => ?_
  · have := hperm.map (·.1)
    rw [hfst] at this
    exact this.trans hsort.symm
  · refine List.pairwise_map.mpr (hranks.imp fun {a b} h => ?_)
    rw [rank_lt_rank] at h
    simp only [le, Bool.or_eq_true, decide_eq_true_eq, Bool.and_eq_true]
    omega
  · -- the edits of one span are ranked by their places alone
    have hone : rs.filter (fun r => r.1.start = start ∧ r.1.stop = stop) =
        es.zipIdx.filter fun r => r.1.start = start ∧ r.1.stop = stop := by
      refine (hperm.filter _).eq_of_pairwise
        (fun a b _ _ (hab : a.2 < b.2) (hba : b.2 < a.2) => absurd hab (Nat.lt_asymm hba)) ?_ ?_
      · refine (List.Pairwise.and_mem.mp (hranks.filter _)).imp fun {a b} h => ?_
        have ha := (List.mem_filter.mp h.1).2
        have hb := (List.mem_filter.mp h.2.1).2
        have hab := rank_lt_rank.mp h.2.2
        simp only [decide_eq_true_eq] at ha hb
        omega
      · exact (zipIdx_pairwise es).filter _
    calc ofSpan start stop (rs.map (·.1))
        = (rs.filter fun r => r.1.start = start ∧ r.1.stop = stop).map (·.1) := List.filter_map
      _ = (es.zipIdx.filter fun r => r.1.start = start ∧ r.1.stop = stop).map (·.1) := by
          rw [hone]
      _ = ofSpan start stop (es.zipIdx.map (·.1)) := by rw [ofSpan, List.filter_map]; rfl
      _ = ofSpan start stop (Order.sort le es) := by rw [hfst, ofSpan_sort]

/-- Where edits have got to: the stop of the last one, or the offset they set out from. -/
def reach : Int → List Edit → Int
  | lo, [] => lo
  | _, e :: es => reach e.stop es

theorem reach_concat (lo : Int) (es : List Edit) (e : Edit) : reach lo (es ++ [e]) = e.stop := by
  induction es generalizing lo with
  | nil => rfl
  | cons a es ih => exact ih a.stop

/-- Applying edits in order ends with an overlap exactly if one of them, the first, starts before
the edits in front of it have ended. -/
theorem weave_error_iff {src : Bytes} {lo : Int} {es : List Edit} {o : Overlap} :
    weave src lo es = .error o ↔ ∃ front b back, es = front ++ b :: back ∧ InOrder lo front ∧
      b.start < reach lo front ∧ o.pos = b.start := by
  induction es generalizing lo with
  | nil => simp [weave]
  | cons e es ih =>
    by_cases hlo : e.start < lo
    · rw [weave, if_pos hlo]
      constructor
      · rintro h
        cases h
        exact ⟨[], e, es, rfl, trivial, hlo, rfl⟩
      · rintro ⟨front, b, back, hes, horder, hb, ho⟩
        cases front with
        | nil =>
          obtain ⟨rfl, rfl⟩ := List.cons.inj hes
          exact congrArg Except.error (by cases o; simpa using ho.symm)
        | cons a front =>
          obtain ⟨rfl, _⟩ := List.cons.inj hes
          exact absurd horder.1 (by omega)
    · have hmap : weave src lo (e :: es) = .error o ↔ weave src e.stop es = .error o := by
        rw [weave, if_neg hlo]
        cases weave src e.stop es <;> simp [Except.map]
      rw [hmap, ih]
      constructor
      · rintro ⟨front, b, back, rfl, horder, hb, ho⟩
        exact ⟨e :: front, b, back, rfl, ⟨by omega, horder⟩, hb, ho⟩
      · rintro ⟨front, b, back, hes, horder, hb, ho⟩
        cases front with
        | nil =>
          obtain ⟨rfl, rfl⟩ := List.cons.inj hes
          exact absurd hb hlo
        | cons a front =>
          obtain ⟨rfl, rfl⟩ := List.cons.inj hes
          exact ⟨front, b, back, rfl, horder.2, hb, ho⟩

/-- An edit that starts where the edits in front of it have ended is applied in front of the
rest. -/
theorem weave_cons_ok {src : Bytes} {lo : Int} {e : Edit} {es : List Edit} {tail : Bytes}
    (hlo : lo ≤ e.start) (h : weave src e.stop es = .ok tail) :
    weave src lo (e :: es) = .ok (src.between lo e.start ++ Bytes.ofString e.text ++ tail) := by
  rw [weave, if_neg (by omega), h]
  rfl

/-- Edits that can be applied in order come one after the other. -/
theorem inOrder_of_weave {src : Bytes} {lo : Int} {es : List Edit} {out : Bytes}
    (h : weave src lo es = .ok out) : InOrder lo es := by
  induction es generalizing lo out with
  | nil => exact trivial
  | cons e es ih =>
    rw [weave] at h
    split at h
    · cases h
    · next hlo =>
      cases htail : weave src e.stop es with
      | error o => rw [htail] at h; cases h
      | ok tail => exact ⟨by omega, ih htail⟩

/-- Of spans that come one after the other, each ends before the later ones start. -/
theorem InOrder.pairwise {lo : Int} {es : List Edit} (h : InOrder lo es)
    (hspan : ∀ e ∈ es, e.start ≤ e.stop) : es.Pairwise fun a b => a.stop ≤ b.start := by
  induction es generalizing lo with
  | nil => exact List.Pairwise.nil
  | cons e es ih =>
    have hspan' : ∀ a ∈ es, a.start ≤ a.stop := fun a ha => hspan a (List.mem_cons_of_mem e ha)
    exact List.Pairwise.cons (h.2.le_start hspan') (ih h.2 hspan')

/-- Edits that come one after the other are applied in the order they are given in. -/
theorem splice_of_weave {src : Bytes} {es : List Edit} {out : Bytes}
    (hspan : ∀ e ∈ es, e.start ≤ e.stop) (h : weave src 0 es = .ok out) :
    splice src es = .ok out := by
  have hsorted : es.Pairwise fun a b => le a b = true := by
    have hpairwise := (inOrder_of_weave h).pairwise hspan
    refine (List.Pairwise.and_mem.mp hpairwise).imp fun {a b} hab => ?_
    have ha := hspan a hab.1
    have hb := hspan b hab.2.1
    have := hab.2.2
    simp only [le, Bool.or_eq_true, decide_eq_true_eq, Bool.and_eq_true]
    omega
  rw [splice, Order.sort_eq_insertionSort, hsorted.insertionSort_eq, h]

/-- One edit replaces its span in a text that agrees with `src` up to where the edit stops. -/
theorem applyTo_append {src tail : Bytes} {e : Edit} (he : e.Fits src) :
    applyTo (src.between 0 e.stop ++ tail) e =
      src.between 0 e.start ++ Bytes.ofString e.text ++ tail := by
  obtain ⟨hnonneg, hspan, hstop⟩ := he
  have hlen : (src.between 0 e.stop).length = e.stop.toNat := by
    have hbetween : ((src.between 0 e.stop).length : Int) = e.stop - 0 :=
      Bytes.length_between le_rfl (hnonneg.trans hspan) hstop
    omega
  have hlen' : (src.between 0 e.start).length = e.start.toNat := by
    have hbetween : ((src.between 0 e.start).length : Int) = e.start - 0 :=
      Bytes.length_between le_rfl hnonneg (hspan.trans hstop)
    omega
  have hfront : (src.between 0 e.stop ++ tail).between 0 e.start = src.between 0 e.start := by
    rw [Bytes.between_append le_rfl hnonneg hspan hstop, List.append_assoc, Bytes.between,
      Bytes.offset_of_nonneg le_rfl (Int.natCast_nonneg _),
      Bytes.offset_of_nonneg hnonneg (by rw [List.length_append]; omega)]
    exact List.take_left' hlen'
  have hback : (src.between 0 e.stop ++ tail).suffix e.stop = tail := by
    rw [Bytes.suffix, Bytes.offset_of_nonneg (hnonneg.trans hspan)
      (by rw [List.length_append]; omega)]
    exact List.drop_left' hlen
  rw [applyTo, hfront, hback]

/-- Applied at once, edits that come one after the other leave what they leave when they are applied
one at a time from the last to the first. -/
theorem weave_eq_foldr {src : Bytes} {lo : Int} {es : List Edit} {out : Bytes}
    (hfits : ∀ e ∈ es, e.Fits src) (h0 : 0 ≤ lo) (hlo : lo ≤ src.length)
    (h : weave src lo es = .ok out) :
    es.foldr (fun e text => applyTo text e) src = src.between 0 lo ++ out := by
  induction es generalizing lo out with
  | nil =>
    cases h
    rw [List.foldr_nil, ← Bytes.suffix_eq_between_append le_rfl h0 hlo]
    rfl
  | cons e es ih =>
    obtain ⟨hnonneg, hspan, hstop⟩ := hfits e List.mem_cons_self
    rw [weave] at h
    split at h
    · cases h
    · next hle =>
      cases htail : weave src e.stop es with
      | error o => rw [htail] at h; cases h
      | ok tail =>
        rw [htail] at h
        cases h
        have hrest := ih (fun a ha => hfits a (List.mem_cons_of_mem e ha)) (by omega) hstop htail
        rw [List.foldr_cons, hrest, applyTo_append ⟨hnonneg, hspan, hstop⟩,
          Bytes.between_append le_rfl h0 (by omega) (hspan.trans hstop)]
        simp only [List.append_assoc]

/-- Edits of spans of a text overlap exactly if two of them do not stand apart. -/
theorem splice_error_iff {src : Bytes} {es : List Edit} (hfits : ∀ e ∈ es, e.Fits src) :
    (∃ o, splice src es = .error o) ↔ ¬ es.Pairwise Apart := by
  constructor
  · rintro ⟨o, ho⟩ hapart
    obtain ⟨out, hout⟩ := splice_ok hapart hfits
    rw [hout] at ho
    cases ho
  · intro hclash
    cases hsplice : splice src es with
    | error o => exact ⟨o, rfl⟩
    | ok out =>
      have hspan : ∀ e ∈ Order.sort le es, e.start ≤ e.stop :=
        fun e he => (hfits e (mem_sort.mp he)).start_le_stop
      refine absurd ?_ hclash
      exact (sorted_edits es).1.pairwise
        (((inOrder_of_weave hsplice).pairwise hspan).imp .inl) fun h => h.symm

/-- Edits do not all stand apart exactly if of two different ones each starts before the other
ends. -/
theorem not_pairwise_apart_iff {es : List Edit} :
    ¬ es.Pairwise Apart ↔ ∃ (i j : Nat) (a b : Edit), i ≠ j ∧ es[i]? = some a ∧ es[j]? = some b ∧
      a.start < b.stop ∧ b.start < a.stop := by
  rw [List.pairwise_iff_getElem]
  constructor
  · intro h
    push Not at h
    obtain ⟨i, j, hi, hj, hij, hclash⟩ := h
    rw [Apart] at hclash
    exact ⟨i, j, es[i], es[j], by omega, List.getElem?_eq_getElem hi, List.getElem?_eq_getElem hj,
      by omega, by omega⟩
  · rintro ⟨i, j, a, b, hij, ha, hb, hab, hba⟩ h
    obtain ⟨hi, rfl⟩ := List.getElem?_eq_some_iff.mp ha
    obtain ⟨hj, rfl⟩ := List.getElem?_eq_some_iff.mp hb
    rcases Nat.lt_or_gt_of_ne hij with hlt | hgt
    · have := h i j hi hj hlt
      rw [Apart] at this
      omega
    · have := h j i hj hi hgt
      rw [Apart] at this
      omega

/-- Edits of spans of a text overlap exactly if of two different ones each starts before the other
ends. The overlap names the first one, in the order of start, stop and place, that starts before the
one in front of it ends. Otherwise they leave what they leave when they are applied one at a time,
from the last in that order to the first. -/
theorem splice_one_by_one {src : Bytes} {es : List Edit} (hfits : ∀ e ∈ es, e.Fits src) :
    ∃ rs : List (Edit × Nat), rs.Perm es.zipIdx ∧ (rs.Pairwise fun a b => rank a < rank b) ∧
      ((∃ o, splice src es = .error o) ↔
        ∃ (i j : Nat) (a b : Edit), i ≠ j ∧ es[i]? = some a ∧ es[j]? = some b ∧
          a.start < b.stop ∧ b.start < a.stop) ∧
      (∀ o, splice src es = .error o ↔
        ∃ front a b back, rs.map (·.1) = front ++ a :: b :: back ∧ InOrder 0 (front ++ [a]) ∧
          b.start < a.stop ∧ o.pos = b.start) ∧
      ∀ out, splice src es = .ok out →
        out = (rs.map (·.1)).foldr (fun e text => applyTo text e) src := by
  obtain ⟨rs, hperm, hranks, horder⟩ := exists_ranked es
  refine ⟨rs, hperm, hranks, ?_, fun o => ?_, fun out hout => ?_⟩
  · rw [splice_error_iff hfits, not_pairwise_apart_iff]
  · rw [splice, weave_error_iff, horder]
    constructor
    · rintro ⟨front, b, back, hws, hfront, hb, ho⟩
      -- no edit of the text starts before its first byte, so there is one in front of `b`
      rcases List.eq_nil_or_concat front with rfl | ⟨front, a, rfl⟩
      · have hmem : b ∈ Order.sort le es := hws ▸ List.mem_append_right _ List.mem_cons_self
        have hnonneg := (hfits b (mem_sort.mp hmem)).start_nonneg
        rw [reach] at hb
        omega
      · rw [List.concat_eq_append] at hws hfront hb
        rw [reach_concat] at hb
        exact ⟨front, a, b, back, by simpa using hws, hfront, hb, ho⟩
    · rintro ⟨front, a, b, back, hws, hfront, hb, ho⟩
      exact ⟨front ++ [a], b, back, by simpa using hws, hfront, by rwa [reach_concat], ho⟩
  · have hweave := weave_eq_foldr (fun e he => hfits e (mem_sort.mp he)) le_rfl
      (Int.natCast_nonneg _) hout
    rw [horder, hweave, Bytes.between_self, List.nil_append]

/-- Insertions at both ends of a replaced span, two of them at one point, are applied one at a
time. -/
theorem splice_one_by_one_touching :
    ∃ rs : List (Edit × Nat),
      rs.Perm [(⟨3, 3, "x"⟩, 0), (⟨1, 3, "y"⟩, 1), (⟨3, 3, "z"⟩, 2), (⟨1, 1, "w"⟩, 3)] ∧
      (rs.Pairwise fun a b => rank a < rank b) ∧
      (rs.map (·.1)).foldr (fun e text => applyTo text e) (Bytes.ofString "abcdef") =
        Bytes.ofString "awyxzdef" := by
  have hfits : ∀ e ∈ [⟨3, 3, "x"⟩, ⟨1, 3, "y"⟩, ⟨3, 3, "z"⟩, (⟨1, 1, "w"⟩ : Edit)],
      e.Fits (Bytes.ofString "abcdef") := by
    intro e he
    have hspan : 0 ≤ e.start ∧ e.start ≤ e.stop ∧ e.stop ≤ (Bytes.ofString "abcdef").length := by
      revert e
      decide
    exact ⟨hspan.1, hspan.2.1, hspan.2.2⟩
  obtain ⟨rs, hperm, hranks, _, _, hout⟩ := splice_one_by_one hfits
  exact ⟨rs, hperm, hranks, (hout _ rfl).symm⟩

end CtxThread.Edit
