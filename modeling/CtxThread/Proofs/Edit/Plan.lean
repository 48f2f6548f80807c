import CtxThread.Edit.Plan
import CtxThread.Proofs.Code.Layout
import CtxThread.Proofs.Edit.Splice

/-!
# Where planned edits stand

Two sorts of edits are planned. An insertion goes right after an opening bracket or a line end,
before a line end, or to an end of the text. Every other edit replaces bytes among which there is
neither an opening bracket nor a line end, so an insertion never falls inside of it. It belongs to
a call or to a function, and lies outside of all calls and functions below that one.

## Main definitions

- `Edit.Guarded`: an insertion at such a place
- `Edit.Quiet`: a replacement of such bytes
- `Edit.Owned`: a replacement that belongs to a node
- `Separates`: what stands between a new first element of a list and the others

## Main statements

- `Edit.Guarded.apart`: an insertion stands apart from the replacements
- `Edit.Owned.apart`: replacements that belong to two nodes of a walk stand apart
- `leadingItem_eq`: where a first element is inserted, and its text
-/

namespace CtxThread

open Code (Tree Kind)

namespace Bytes

/-- An opening parenthesis, an opening brace or a line end. -/
def isGuard (b : UInt8) : Bool := b = 0x28 || b = 0x7B || b = lineFeed

/-- What only separates and stands on one line holds no guard. -/
theorem isGuard_eq_false {src : Bytes} {a b : Nat} (hab : a ≤ b) (hline : src.sameLine a b = true)
    (hsep : src.onlySeparators a b = true) : ∀ c ∈ src.slice a b, isGuard c = false := by
  intro c hc
  have hne : c ≠ lineFeed := by
    rintro rfl
    rw [sameLine, Nat.min_eq_left hab, Nat.max_eq_right hab] at hline
    simp only [Bool.not_eq_true', List.contains_eq_mem, decide_eq_false_iff_not] at hline
    exact hline hc
  have hc' : isSeparator c = true := List.all_eq_true.mp hsep c hc
  by_contra hguard
  simp only [isGuard, Bool.or_eq_true, decide_eq_true_eq, Bool.not_eq_false] at hguard
  rcases hguard with (rfl | rfl) | rfl
  · exact absurd hc' (by decide)
  · exact absurd hc' (by decide)
  · exact hne rfl

/-- What only separates has no substance. -/
theorem substance_eq_nil {src : Bytes} {a b : Nat} (h : src.onlySeparators a b = true) :
    (src.slice a b).substance = [] := by
  apply List.filter_eq_nil_iff.mpr
  intro c hc
  simp [List.all_eq_true.mp h c hc]

end Bytes

namespace Edit

/-- An insertion next to a guard or at an end of the text. -/
def Guarded (src : Bytes) (e : Edit) : Prop :=
  ∃ p : Nat, e.start = p ∧ e.stop = p ∧ p ≤ src.length ∧
    (p = 0 ∨ p = src.length ∨ src[p]? = some Bytes.lineFeed ∨
      ∃ q b, p = q + 1 ∧ src[q]? = some b ∧ Bytes.isGuard b = true)

/-- A replacement of bytes among which there is no guard. -/
def Quiet (src : Bytes) (e : Edit) : Prop :=
  ∃ a b : Nat, e.start = a ∧ e.stop = b ∧ a ≤ b ∧ b ≤ src.length ∧
    ∀ c ∈ src.slice a b, Bytes.isGuard c = false

/-- The nodes that replacements belong to. -/
def isOwner (k : Kind) : Bool := k = .callExpression || k.isFunc

/-- A replacement inside the node `m`, a call or a function, and outside of all calls and functions
below it. Nothing but separators is lost. -/
structure Owned (src : Bytes) (m : Tree) (e : Edit) : Prop where
  owner : isOwner m.kind = true
  quiet : e.Quiet src
  keeps : e.Keeps src
  start_le : m.start ≤ e.start
  le_stop : e.stop ≤ m.stop
  clear : ∀ c ∈ m.children, ∀ n ∈ c.walk, isOwner n.kind = true →
    e.stop ≤ n.start ∨ n.stop ≤ e.start

section Basic

variable {src : Bytes} {a b e : Edit}

theorem Guarded.fits (h : e.Guarded src) : e.Fits src := by
  obtain ⟨p, hstart, hstop, hp, _⟩ := h
  exact ⟨by omega, by omega, by omega⟩

theorem Quiet.fits (h : e.Quiet src) : e.Fits src := by
  obtain ⟨i, j, hstart, hstop, hij, hj, _⟩ := h
  exact ⟨by omega, by omega, by omega⟩

/-- An insertion next to a guard loses nothing. -/
theorem Guarded.keeps (h : e.Guarded src) : e.Keeps src := by
  obtain ⟨p, hstart, hstop, _⟩ := h
  rw [Keeps, hstart, hstop, Bytes.between_self]
  exact List.nil_sublist _

/-- An insertion of more than separators gains something. -/
theorem Guarded.adds (h : e.Guarded src) (htext : (Bytes.ofString e.text).substance ≠ []) :
    e.Adds src := by
  obtain ⟨p, hstart, hstop, _⟩ := h
  rw [Adds, hstart, hstop, Bytes.between_self]
  exact List.length_pos_iff.mpr htext

theorem Guarded.apart_guarded (ha : a.Guarded src) (hb : b.Guarded src) : a.Apart b := by
  obtain ⟨p, hstart, hstop, _⟩ := ha
  obtain ⟨q, hstart', hstop', _⟩ := hb
  rw [Apart]
  omega

/-- An insertion next to a guard is not inside of a replacement without guards. -/
theorem Guarded.apart_quiet (ha : a.Guarded src) (hb : b.Quiet src) : a.Apart b := by
  obtain ⟨p, hstart, hstop, hp, hguard⟩ := ha
  obtain ⟨i, j, hstart', hstop', hij, hj, hquiet⟩ := hb
  by_contra hapart
  have hip : i < p := by rw [Apart] at hapart; omega
  have hpj : p < j := by rw [Apart] at hapart; omega
  rcases hguard with rfl | rfl | hline | ⟨q, c, rfl, hc, hguard⟩
  · omega
  · omega
  · have := hquiet _ (Bytes.mem_slice_of_getElem? hip.le hpj hline)
    exact absurd this (by decide)
  · have := hquiet _ (Bytes.mem_slice_of_getElem? (by omega) (by omega) hc)
    rw [hguard] at this
    cases this

/-- Replacements that belong to two nodes of a walk stand apart. -/
theorem Owned.apart {m n : Tree} (ha : a.Owned src m) (hb : b.Owned src n)
    (hmn : m.stop ≤ n.start ∨ ∃ c ∈ m.children, n ∈ c.walk) : a.Apart b := by
  have hb1 := hb.start_le
  have hb2 := hb.le_stop
  rcases hmn with hafter | ⟨c, hc, hn⟩
  · have := ha.le_stop
    exact .inl (by omega)
  · rcases ha.clear c hc n hn hb.owner with h | h
    · exact .inl (by omega)
    · exact .inr (by omega)

end Basic

end Edit

/-! ## First elements of lists -/

/-- What separates a new first element from the elements that a list has: nothing if it has none,
and else a comma, followed by a blank if the first of them is on the line of the parenthesis. -/
def Separates (src : Bytes) (list : Tree) (items : List Tree) (sep : String) : Prop :=
  match items with
  | [] => sep = ""
  | first :: _ => sep = if src.sameLine list.start first.start then ", " else ","

theorem Separates.cases {src : Bytes} {list : Tree} {items : List Tree} {sep : String}
    (h : Separates src list items sep) :
    sep = "" ∧ items = [] ∨ (sep = "," ∨ sep = ", ") ∧ items ≠ [] := by
  cases items with
  | nil => exact .inl ⟨h, rfl⟩
  | cons first rest =>
    refine .inr ⟨?_, List.cons_ne_nil _ _⟩
    rw [Separates] at h
    split at h
    · exact .inr h
    · exact .inl h

/-- A first element is inserted right behind the parenthesis, with what separates it from the
others. -/
theorem leadingItem_eq (src : Bytes) (list : Tree) (items : List Tree) (text : String) :
    ∃ sep, leadingItem src list items text = ⟨list.start + 1, list.start + 1, text ++ sep⟩ ∧
      Separates src list items sep := by
  cases items with
  | nil => exact ⟨"", by rw [String.append_empty]; rfl, rfl⟩
  | cons first rest =>
    rw [leadingItem]
    split
    · next hline => exact ⟨", ", rfl, (if_pos hline).symm⟩
    · next hline => exact ⟨",", rfl, (if_neg hline).symm⟩

theorem leadingItem_start (src : Bytes) (list : Tree) (items : List Tree) (text : String) :
    (leadingItem src list items text).start = list.start + 1 ∧
      (leadingItem src list items text).stop = list.start + 1 := by
  obtain ⟨sep, h, _⟩ := leadingItem_eq src list items text
  rw [h]
  exact ⟨rfl, rfl⟩

/-- A first element of a list in parentheses is inserted right after the parenthesis. -/
theorem leadingItem_guarded {src : Bytes} {list : Tree} (hlaid : list.Laid src)
    (hk : list.kind = .parameterList ∨ list.kind = .argumentList) (items : List Tree)
    (text : String) : (leadingItem src list items text).Guarded src := by
  have hopen := hlaid.opens_paren hk
  have hlt : list.start < src.length := (List.getElem?_eq_some_iff.mp hopen).1
  obtain ⟨hstart, hstop⟩ := leadingItem_start src list items text
  exact ⟨list.start + 1, hstart, hstop, hlt, .inr (.inr (.inr ⟨list.start, _, rfl, hopen, rfl⟩))⟩

/-- A first element of a list is inserted with its text. -/
theorem leadingItem_substance {src : Bytes} {list : Tree} {items : List Tree} {text : String}
    (h : (Bytes.ofString text).substance ≠ []) :
    (Bytes.ofString (leadingItem src list items text).text).substance ≠ [] := by
  obtain ⟨sep, he, _⟩ := leadingItem_eq src list items text
  rw [he]
  simp [h]

end CtxThread
