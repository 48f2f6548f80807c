import CtxThread.Edit
import CtxThread.Proofs.Text.Bytes
import Mathlib.Algebra.BigOperators.Group.List.Basic
import Mathlib.Algebra.Ring.Int.Defs
import Mathlib.Data.List.Sort

/-!
# Applying edits that do not overlap

Edits can be applied when any two of them stand apart. What they leave of a text is then told by
what each of them leaves of its own span: the text without its separators is kept, in order, if
every edit keeps what it replaces.

## Main definitions

- `Edit.Apart`: one of two edits ends before the other starts
- `Edit.Fits`: an edit of a span of the text
- `Bytes.substance`: a text without its separators
- `Edit.Keeps`, `Edit.Adds`: an edit loses no substance, or gains some
- `Edit.shift`: by how much edits move what stands at an offset

## Main statements

- `Edit.splice_ok`: edits that stand apart can be applied
- `Edit.splice_substance`: edits that keep substance lose none together
- `Edit.splice_substance_lt`: and if one gains some, so do they together
- `Edit.splice_stands`: what all edits keep off is left as it is
-/

namespace CtxThread

/-- Putting elements in order one by one is the insertion sort of the library. -/
theorem Order.sort_eq_insertionSort {α : Type} (le : α → α → Bool) (as : List α) :
    Order.sort le as = as.insertionSort fun a b => le a b = true := by
  have hplace : ∀ a bs, Order.place le a bs = bs.orderedInsert (fun a b => le a b = true) a := by
    intro a bs
    induction bs with
    | nil => rfl
    | cons b bs ih => simp only [Order.place, List.orderedInsert_cons, ih]
  induction as with
  | nil => rfl
  | cons a as ih => rw [Order.sort, ih, hplace, List.insertionSort_cons]

namespace Bytes

/-- A text without its separators. -/
def substance (bs : Bytes) : Bytes := bs.filter fun b => !isSeparator b

@[simp] theorem substance_nil : substance [] = [] := rfl

@[simp] theorem substance_append (as bs : Bytes) :
    substance (as ++ bs) = substance as ++ substance bs :=
  List.filter_append ..

end Bytes

namespace Edit

/-- One of the two edits ends before the other starts. -/
def Apart (a b : Edit) : Prop := a.stop ≤ b.start ∨ b.stop ≤ a.start

theorem Apart.symm {a b : Edit} (h : a.Apart b) : b.Apart a := Or.symm h

/-- The edit replaces a span of the text. -/
structure Fits (src : Bytes) (e : Edit) : Prop where
  start_nonneg : 0 ≤ e.start
  start_le_stop : e.start ≤ e.stop
  stop_le : e.stop ≤ src.length

/-- The edits come one after the other from `lo` on. -/
def InOrder : Int → List Edit → Prop
  | _, [] => True
  | lo, e :: es => lo ≤ e.start ∧ InOrder e.stop es

/-- Sorted edits that stand apart come one after the other. -/
theorem inOrder_of_sorted {es : List Edit} {lo : Int}
    (hsorted : es.Pairwise fun a b => le a b = true) (hapart : es.Pairwise Apart)
    (hspan : ∀ e ∈ es, e.start ≤ e.stop) (hlo : ∀ e ∈ es, lo ≤ e.start) : InOrder lo es := by
  induction es generalizing lo with
  | nil => exact trivial
  | cons e es ih =>
    obtain ⟨hfirst, hsorted⟩ := List.pairwise_cons.mp hsorted
    obtain ⟨hclear, hapart⟩ := List.pairwise_cons.mp hapart
    refine ⟨hlo e List.mem_cons_self, ih hsorted hapart ?_ ?_⟩
    · exact fun a ha => hspan a (List.mem_cons_of_mem e ha)
    · -- two edits with the same start are apart only if the first in order is an insertion
      intro a ha
      have hle := hfirst a ha
      have hspan_a := hspan a (List.mem_cons_of_mem e ha)
      simp only [le, Bool.or_eq_true, decide_eq_true_eq, Bool.and_eq_true] at hle
      rcases hclear a ha with h | h
      · exact h
      · omega

theorem weave_ok {src : Bytes} {es : List Edit} {lo : Int} (h : InOrder lo es) :
    ∃ out, weave src lo es = .ok out := by
  induction es generalizing lo with
  | nil => exact ⟨_, rfl⟩
  | cons e es ih =>
    obtain ⟨hlo, hrest⟩ := h
    obtain ⟨tail, htail⟩ := ih hrest
    rw [weave, if_neg (by omega), htail]
    exact ⟨_, rfl⟩

section Sorted

variable {src : Bytes} {es : List Edit}

theorem sorted_edits (es : List Edit) :
    (Order.sort le es).Perm es ∧ (Order.sort le es).Pairwise fun a b => le a b = true := by
  have : Std.Total fun a b : Edit => le a b = true :=
    ⟨fun a b => by simp only [le, Bool.or_eq_true, decide_eq_true_eq, Bool.and_eq_true]; omega⟩
  have : IsTrans Edit fun a b => le a b = true :=
    ⟨fun a b c => by
      simp only [le, Bool.or_eq_true, decide_eq_true_eq, Bool.and_eq_true]
      omega⟩
  rw [Order.sort_eq_insertionSort]
  exact ⟨List.perm_insertionSort _ es, List.pairwise_insertionSort _ es⟩

theorem mem_sort {e : Edit} : e ∈ Order.sort le es ↔ e ∈ es := (sorted_edits es).1.mem_iff

/-- Edits of spans of a text that stand apart come one after the other once they are sorted. -/
theorem inOrder_sort (hapart : es.Pairwise Apart) (hfits : ∀ e ∈ es, e.Fits src) :
    InOrder 0 (Order.sort le es) := by
  obtain ⟨hperm, hsorted⟩ := sorted_edits es
  have hapart' : (Order.sort le es).Pairwise Apart :=
    hperm.symm.pairwise hapart fun h => h.symm
  refine inOrder_of_sorted hsorted hapart' ?_ ?_
  · exact fun e he => (hfits e (mem_sort.mp he)).start_le_stop
  · exact fun e he => (hfits e (mem_sort.mp he)).start_nonneg

/-- Edits of spans of a text that stand apart can be applied. -/
theorem splice_ok (hapart : es.Pairwise Apart) (hfits : ∀ e ∈ es, e.Fits src) :
    ∃ out, splice src es = .ok out :=
  weave_ok (inOrder_sort hapart hfits)

end Sorted

@[simp] theorem splice_nil (src : Bytes) : splice src [] = .ok src := rfl

/-! ## What is kept -/

/-- Nothing but separators of the span is lost. -/
def Keeps (src : Bytes) (e : Edit) : Prop :=
  (src.between e.start e.stop).substance.Sublist (Bytes.ofString e.text).substance

/-- Something other than separators is gained. -/
def Adds (src : Bytes) (e : Edit) : Prop :=
  (src.between e.start e.stop).substance.length < (Bytes.ofString e.text).substance.length

/-- What applying edits in order leaves of the text from `lo` on. -/
theorem weave_substance {src : Bytes} {es : List Edit} {lo : Int} {out : Bytes}
    (hfits : ∀ e ∈ es, e.Fits src) (hkeeps : ∀ e ∈ es, e.Keeps src) (h0 : 0 ≤ lo)
    (h : weave src lo es = .ok out) :
    (src.suffix lo).substance.Sublist out.substance ∧
      ((∃ e ∈ es, e.Adds src) → (src.suffix lo).substance.length < out.substance.length) := by
  induction es generalizing lo out with
  | nil =>
    cases h
    refine ⟨List.Sublist.refl _, ?_⟩
    rintro ⟨e, he, _⟩
    cases he
  | cons e es ih =>
    obtain ⟨hnonneg, hspan, hstop⟩ := hfits e List.mem_cons_self
    have hkeep := hkeeps e List.mem_cons_self
    rw [weave] at h
    split at h
    · cases h
    · next hlo =>
      cases htail : weave src e.stop es with
      | error o => rw [htail] at h; cases h
      | ok tail =>
        rw [htail] at h
        cases h
        obtain ⟨hsub, hadds⟩ := ih (fun a ha => hfits a (List.mem_cons_of_mem e ha))
          (fun a ha => hkeeps a (List.mem_cons_of_mem e ha)) (by omega) htail
        -- the text falls into what is before the edit, what it replaces, and what is after it
        have hcut : src.suffix lo = src.between lo e.start ++
            (src.between e.start e.stop ++ src.suffix e.stop) := by
          have hle : lo ≤ e.start := by omega
          have hle' : e.start ≤ src.length := by omega
          rw [Bytes.suffix_eq_between_append h0 hle hle',
            Bytes.suffix_eq_between_append hnonneg hspan hstop]
        rw [hcut]
        simp only [Bytes.substance_append, List.append_assoc]
        refine ⟨(List.Sublist.refl _).append (hkeep.append hsub), ?_⟩
        rintro ⟨a, ha, hadd⟩
        simp only [List.length_append]
        have hlen := hkeep.length_le
        have hlen' := hsub.length_le
        rcases List.mem_cons.mp ha with rfl | ha
        · have : (src.between a.start a.stop).substance.length <
            (Bytes.ofString a.text).substance.length := hadd
          omega
        · have := hadds ⟨a, ha, hadd⟩
          omega

section Splice

variable {src : Bytes} {es : List Edit} {out : Bytes} (hfits : ∀ e ∈ es, e.Fits src)
  (hkeeps : ∀ e ∈ es, e.Keeps src) (h : splice src es = .ok out)

include hfits hkeeps h

/-- If every edit loses nothing but separators, so do all of them together. -/
theorem splice_substance : src.substance.Sublist out.substance :=
  (weave_substance (fun e he => hfits e (mem_sort.mp he)) (fun e he => hkeeps e (mem_sort.mp he))
    le_rfl h).1

/-- If every edit loses nothing but separators and one gains something, so do all of them
together. -/
theorem splice_substance_lt (hadds : ∃ e ∈ es, e.Adds src) :
    src.substance.length < out.substance.length := by
  obtain ⟨e, he, hadd⟩ := hadds
  exact (weave_substance (fun e he => hfits e (mem_sort.mp he))
    (fun e he => hkeeps e (mem_sort.mp he)) le_rfl h).2 ⟨e, mem_sort.mpr he, hadd⟩

end Splice

/-! ## What stays in place -/

/-- By how many bytes an edit moves what comes after it. -/
def growth (e : Edit) : Int := (Bytes.ofString e.text).length - (e.stop - e.start)

/-- By how many bytes edits move what stands at `pos`. -/
def shift (es : List Edit) (pos : Int) : Int := ((es.filter (·.stop ≤ pos)).map growth).sum

theorem InOrder.le_start {lo : Int} {es : List Edit} (h : InOrder lo es)
    (hspan : ∀ e ∈ es, e.start ≤ e.stop) : ∀ e ∈ es, lo ≤ e.start := by
  induction es generalizing lo with
  | nil => simp
  | cons a es ih =>
    intro e he
    have ha := hspan a List.mem_cons_self
    rcases List.mem_cons.mp he with rfl | he
    · exact h.1
    · have := ih h.2 (fun b hb => hspan b (List.mem_cons_of_mem a hb)) e he
      have := h.1
      omega

theorem shift_eq_zero {es : List Edit} {pos : Int} (h : ∀ e ∈ es, pos < e.stop) :
    shift es pos = 0 := by
  have hnone : es.filter (·.stop ≤ pos) = [] := by
    refine List.filter_eq_nil_iff.mpr fun e he => ?_
    have := h e he
    simpa using this
  rw [shift, hnone]
  rfl

/-- A span that all edits keep off is left as it is, moved by the edits in front of it. -/
theorem weave_stands {src : Bytes} {es : List Edit} {lo : Int} {a b : Nat} {out : Bytes}
    (hab : a < b) (hb : b ≤ src.length) (hfits : ∀ e ∈ es, e.Fits src)
    (hclear : ∀ e ∈ es, e.stop ≤ a ∨ b ≤ e.start) (h0 : 0 ≤ lo) (hlo : lo ≤ a)
    (horder : InOrder lo es) (h : weave src lo es = .ok out) :
    ∃ before after, out = before ++ src.slice a b ++ after ∧
      (before.length : Int) = a - lo + shift es a := by
  induction es generalizing lo out with
  | nil =>
    cases h
    refine ⟨src.between lo a, src.suffix b, ?_, ?_⟩
    · rw [Bytes.suffix_eq_between_append h0 hlo (by omega),
        Bytes.suffix_eq_between_append (a := a) (b := b) (by omega) (by omega) (by omega),
        Bytes.between_natCast hab.le hb, List.append_assoc]
    · rw [Bytes.length_between h0 hlo (by omega)]
      exact (Int.add_zero _).symm
  | cons e es ih =>
    obtain ⟨hnonneg, hspan, hstop⟩ := hfits e List.mem_cons_self
    have hfits' : ∀ e ∈ es, e.Fits src := fun x hx => hfits x (List.mem_cons_of_mem e hx)
    obtain ⟨hle, hrest⟩ := horder
    rw [weave, if_neg (by omega)] at h
    cases htail : weave src e.stop es with
    | error o => rw [htail] at h; cases h
    | ok tail =>
      rw [htail] at h
      cases h
      rcases hclear e List.mem_cons_self with hbefore | hafter
      · obtain ⟨before, after, rfl, hlen⟩ := ih hfits'
          (fun x hx => hclear x (List.mem_cons_of_mem e hx)) (by omega) hbefore hrest htail
        refine ⟨src.between lo e.start ++ Bytes.ofString e.text ++ before, after, by simp, ?_⟩
        have hshift : shift (e :: es) a = growth e + shift es a := by
          rw [shift, List.filter_cons_of_pos (by simpa using hbefore), List.map_cons,
            List.sum_cons, shift]
        have hcut : ((src.between lo e.start).length : Int) = e.start - lo :=
          Bytes.length_between h0 hle (by omega)
        simp only [List.length_append, Int.natCast_add, hshift, growth]
        omega
      · -- this edit and all later ones come after the span
        have hlater := hrest.le_start fun x hx => (hfits' x hx).start_le_stop
        have hshift : shift (e :: es) a = 0 := by
          refine shift_eq_zero fun x hx => ?_
          rcases List.mem_cons.mp hx with rfl | hx
          · omega
          · have := hlater x hx
            have := (hfits' x hx).start_le_stop
            omega
        refine ⟨src.between lo a, src.between b e.start ++ Bytes.ofString e.text ++ tail, ?_, ?_⟩
        · rw [Bytes.between_append h0 hlo (by omega) (by omega),
            Bytes.between_append (a := a) (b := b) (by omega) (by omega) hafter (by omega),
            Bytes.between_natCast hab.le hb]
          simp
        · rw [hshift, Bytes.length_between h0 hlo (by omega)]
          omega

/-- What all edits keep off stands in the new text as it is. -/
theorem splice_stands {src : Bytes} {es : List Edit} {a b : Nat} {out : Bytes} (hab : a < b)
    (hb : b ≤ src.length) (hfits : ∀ e ∈ es, e.Fits src) (hapart : es.Pairwise Apart)
    (hclear : ∀ e ∈ es, e.stop ≤ a ∨ b ≤ e.start) (h : splice src es = .ok out) :
    ∃ before after, out = before ++ src.slice a b ++ after ∧
      (before.length : Int) = a + shift es a := by
  have hshift : shift (Order.sort le es) a = shift es a :=
    (((sorted_edits es).1.filter _).map _).sum_eq
  obtain ⟨before, after, hout, hlen⟩ := weave_stands hab hb (fun e he => hfits e (mem_sort.mp he))
    (fun e he => hclear e (mem_sort.mp he)) le_rfl (Int.natCast_nonneg a)
    (inOrder_sort hapart hfits) h
  exact ⟨before, after, hout, by rw [hlen, hshift]; omega⟩

end Edit

end CtxThread
