import CtxThread.Proofs.Code.Walk
import CtxThread.Proofs.Text.Bytes
import Mathlib.Data.List.Pairwise

/-!
# How trees lie over their text

The children of a node stand one after the other inside the span of the node, the bytes of a
token are those of its span, and the nodes that later stages look for by their brackets begin and
end with them.

## Main definitions

- `Row`: trees one after the other between two offsets
- `Tree.Bracketed`: the first and the last child are given signs
- `Tree.Shaped`: what the kind and the part of a node say about it
- `Tree.Laid`: a tree that lies over a text

## Main statements

- `Tree.Laid.of_mem_walk`: every node of a tree that lies over a text does
- `Tree.Laid.span_le_of_mem_walk`: the span of a node holds the spans of all nodes below it
- `Tree.Laid.pairwise_walk`: of two nodes of a walk, the second is below the first or after it
- `Tree.Laid.exists_parameters`: declarations of functions and methods have parameters
-/

namespace CtxThread

namespace Code

/-- The trees stand one after the other between the offsets `lo` and `hi`. -/
def Row (lo : Nat) : List Tree → Nat → Prop
  | [], hi => lo ≤ hi
  | t :: ts, hi => lo ≤ t.start ∧ t.start ≤ t.stop ∧ Row t.stop ts hi

namespace Row

theorem le {lo hi : Nat} {ts : List Tree} (h : Row lo ts hi) : lo ≤ hi := by
  induction ts generalizing lo with
  | nil => exact h
  | cons t ts ih =>
    obtain ⟨hlo, hspan, hrest⟩ := h
    have := ih hrest
    omega

theorem mono {lo lo' hi hi' : Nat} {ts : List Tree} (h : Row lo ts hi) (hlo : lo' ≤ lo)
    (hhi : hi ≤ hi') : Row lo' ts hi' := by
  induction ts generalizing lo lo' with
  | nil =>
    change lo ≤ hi at h
    change lo' ≤ hi'
    omega
  | cons t ts ih =>
    obtain ⟨hstart, hspan, hrest⟩ := h
    exact ⟨by omega, hspan, ih hrest le_rfl⟩

theorem append {lo mid hi : Nat} {as bs : List Tree} (ha : Row lo as mid) (hb : Row mid bs hi) :
    Row lo (as ++ bs) hi := by
  induction as generalizing lo with
  | nil => exact hb.mono ha le_rfl
  | cons a as ih =>
    obtain ⟨hstart, hspan, hrest⟩ := ha
    exact ⟨hstart, hspan, ih hrest⟩

/-- Two parts of a row meet somewhere between them. -/
theorem of_append {lo hi : Nat} {as bs : List Tree} (h : Row lo (as ++ bs) hi) :
    ∃ mid, Row lo as mid ∧ Row mid bs hi := by
  induction as generalizing lo with
  | nil => exact ⟨lo, le_rfl, h⟩
  | cons a as ih =>
    obtain ⟨hstart, hspan, hrest⟩ := h
    obtain ⟨mid, has, hbs⟩ := ih hrest
    exact ⟨mid, ⟨hstart, hspan, has⟩, hbs⟩

/-- Trees may be left out of a row. -/
theorem sublist {lo hi : Nat} {as bs : List Tree} (hs : as.Sublist bs) (h : Row lo bs hi) :
    Row lo as hi := by
  induction hs generalizing lo with
  | slnil => exact h
  | cons b _ ih =>
    obtain ⟨hstart, hspan, hrest⟩ := h
    exact (ih hrest).mono (by omega) le_rfl
  | cons_cons b _ ih =>
    obtain ⟨hstart, hspan, hrest⟩ := h
    exact ⟨hstart, hspan, ih hrest⟩

/-- A row starts at its first tree. -/
theorem head {lo hi : Nat} {a : Tree} {ts : List Tree} (h : Row lo (a :: ts) hi) :
    Row a.start (a :: ts) hi :=
  ⟨le_rfl, h.2⟩

/-- A row ends at its last tree. -/
theorem getLast {lo hi : Nat} {ts : List Tree} {b : Tree} (h : Row lo ts hi)
    (hb : ts.getLast? = some b) : Row lo ts b.stop := by
  obtain ⟨front, rfl⟩ := List.getLast?_eq_some_iff.mp hb
  obtain ⟨mid, hfront, hlast⟩ := h.of_append
  exact hfront.append ⟨hlast.1, hlast.2.1, le_rfl⟩

theorem bounds_of_mem {lo hi : Nat} {ts : List Tree} (h : Row lo ts hi) {t : Tree}
    (ht : t ∈ ts) : lo ≤ t.start ∧ t.start ≤ t.stop ∧ t.stop ≤ hi := by
  induction ts generalizing lo with
  | nil => cases ht
  | cons a as ih =>
    obtain ⟨hstart, hspan, hrest⟩ := h
    rcases List.mem_cons.mp ht with rfl | ht
    · exact ⟨hstart, hspan, hrest.le⟩
    · obtain ⟨h1, h2, h3⟩ := ih hrest ht
      exact ⟨by omega, h2, h3⟩

/-- In a row, an earlier tree ends before a later one starts. -/
theorem pairwise {lo hi : Nat} {ts : List Tree} (h : Row lo ts hi) :
    ts.Pairwise fun a b => a.stop ≤ b.start := by
  induction ts generalizing lo with
  | nil => exact List.Pairwise.nil
  | cons t ts ih =>
    obtain ⟨_, _, hrest⟩ := h
    exact List.Pairwise.cons (fun b hb => (hrest.bounds_of_mem hb).1) (ih hrest)

/-- Of two different trees of a row, one ends before the other starts. -/
theorem apart_of_ne {lo hi : Nat} {ts : List Tree} (h : Row lo ts hi) {a b : Tree} (ha : a ∈ ts)
    (hb : b ∈ ts) (hne : a ≠ b) : a.stop ≤ b.start ∨ b.stop ≤ a.start := by
  have : Std.Symm fun a b : Tree => a.stop ≤ b.start ∨ b.stop ≤ a.start := ⟨fun _ _ => Or.symm⟩
  have hpairwise : ts.Pairwise fun a b => a.stop ≤ b.start ∨ b.stop ≤ a.start :=
    h.pairwise.imp .inl
  exact hpairwise.forall ha hb hne

end Row

/-- The byte that a bracket consists of, for the brackets that text is inserted next to. -/
def Sign.bracket? : Sign → Option UInt8
  | .lparen => some 0x28
  | .lbrace => some 0x7B
  | .rbrace => some 0x7D
  | _ => none

/-- The kinds of nodes that can play a part. Most parts can be played by any node. -/
def Role.admits : Role → Kind → Bool
  | .body, k => k = .block || k = .literalValue
  | .parameters, k => k = .parameterList
  | .arguments, k => k = .argumentList
  | .field, k => k = .fieldIdentifier
  | _, _ => true

theorem Kind.isFuncDecl_iff {k : Kind} :
    k.isFuncDecl = true ↔ k = .functionDeclaration ∨ k = .methodDeclaration := by
  simp [isFuncDecl]

namespace Tree

/-- The first child is the sign `opening` and the last the sign `closing`, and nothing of the node
lies outside of them. -/
def Bracketed (opening closing : Sign) (t : Tree) : Prop :=
  ∃ a mid b, t.children = a :: (mid ++ [b]) ∧ a.kind = .sign opening ∧ b.kind = .sign closing ∧
    a.start = t.start ∧ b.stop = t.stop

/-- What the kind of a node and the part it plays say about it. -/
structure Shaped (t : Tree) : Prop where
  sign : ∀ s b, t.kind = .sign s → s.bracket? = some b → t.bytes = [b]
  leaf : t.isItem = false ∨ t.kind = .fieldIdentifier → t.children = []
  braces : t.kind = .block ∨ t.kind = .literalValue → t.Bracketed .lbrace .rbrace
  parens : t.kind = .parameterList ∨ t.kind = .argumentList → t.Bracketed .lparen .rparen
  parameters : t.kind.isFuncDecl = true → ∃ c ∈ t.children, c.role = some .parameters
  role : ∀ r, t.role = some r → r.admits t.kind = true

/-- The tree lies over the text `src`: the children of every node stand in a row inside it, the
bytes of a token are those of its span, and every node has its shape. -/
inductive Laid (src : Bytes) : Tree → Prop
  | node (t : Tree) (stop_le : t.stop ≤ src.length) (row : Row t.start t.children t.stop)
      (bytes : t.bytes = [] ∨ t.bytes = src.slice t.start t.stop) (shaped : t.Shaped)
      (children : ∀ c ∈ t.children, Laid src c) : Laid src t

namespace Laid

variable {src : Bytes} {t : Tree}

theorem stop_le (h : Laid src t) : t.stop ≤ src.length := by
  obtain ⟨_, h, _⟩ := h
  exact h

theorem row (h : Laid src t) : Row t.start t.children t.stop := by
  obtain ⟨_, _, h, _⟩ := h
  exact h

theorem start_le_stop (h : Laid src t) : t.start ≤ t.stop := h.row.le

theorem bytes (h : Laid src t) : t.bytes = [] ∨ t.bytes = src.slice t.start t.stop := by
  obtain ⟨_, _, _, h, _⟩ := h
  exact h

theorem shaped (h : Laid src t) : t.Shaped := by
  obtain ⟨_, _, _, _, h, _⟩ := h
  exact h

theorem of_mem_children (h : Laid src t) {c : Tree} (hc : c ∈ t.children) : Laid src c := by
  obtain ⟨_, _, _, _, _, h⟩ := h
  exact h c hc

/-- Every node of a tree that lies over a text lies over it. -/
theorem of_mem_walk (h : Laid src t) {n : Tree} (hn : n ∈ t.walk) : Laid src n := by
  induction t using Tree.induction with
  | node t ih =>
    rcases mem_walk_iff.mp hn with rfl | ⟨c, hc, hn⟩
    · exact h
    · exact ih c hc (h.of_mem_children hc) hn

/-- The span of a node holds the spans of all nodes below it. -/
theorem span_le_of_mem_walk (h : Laid src t) {n : Tree} (hn : n ∈ t.walk) :
    t.start ≤ n.start ∧ n.stop ≤ t.stop := by
  induction t using Tree.induction with
  | node t ih =>
    rcases mem_walk_iff.mp hn with rfl | ⟨c, hc, hn⟩
    · exact ⟨le_rfl, le_rfl⟩
    · obtain ⟨h1, h2⟩ := ih c hc (h.of_mem_children hc) hn
      obtain ⟨h3, _, h4⟩ := h.row.bounds_of_mem hc
      omega

/-- Of two nodes that a walk visits one after the other, the second is below a child of the first
or starts where the first has ended. -/
theorem pairwise_walk (h : Laid src t) :
    t.walk.Pairwise fun a b => a.stop ≤ b.start ∨ ∃ c ∈ a.children, b ∈ c.walk := by
  induction t using Tree.induction with
  | node t ih =>
    rw [walk_eq]
    refine List.Pairwise.cons ?_ ?_
    · intro b hb
      exact .inr (List.mem_flatMap.mp hb)
    · rw [List.pairwise_flatMap]
      refine ⟨fun c hc => ih c hc (h.of_mem_children hc), ?_⟩
      refine (List.Pairwise.and_mem.mp h.row.pairwise).imp ?_
      rintro c d ⟨hc, hd, hcd⟩ a ha b hb
      have hac := ((h.of_mem_children hc).span_le_of_mem_walk ha).2
      have hdb := ((h.of_mem_children hd).span_le_of_mem_walk hb).1
      exact .inl (by omega)

/-- A sign that is a bracket spans one byte, the bracket. -/
theorem bracket (h : Laid src t) {s : Sign} {b : UInt8} (hk : t.kind = .sign s)
    (hb : s.bracket? = some b) : t.stop = t.start + 1 ∧ src[t.start]? = some b := by
  have hbytes := h.shaped.sign s b hk hb
  have hslice : src.slice t.start t.stop = [b] := by
    rcases h.bytes with hnil | hslice
    · rw [hnil] at hbytes
      cases hbytes
    · rw [← hslice, hbytes]
  have hlen := Bytes.length_slice src t.start t.stop
  have hstop := h.stop_le
  rw [hslice, List.length_singleton] at hlen
  have hget := Bytes.getElem?_slice src t.start t.stop 0
  rw [hslice, if_pos (by omega)] at hget
  exact ⟨by omega, hget.symm⟩

/-- A node in brackets starts with the opening one and ends with the closing one, and its other
children stand between them. -/
theorem of_bracketed (h : Laid src t) {opening closing : Sign} {b c : UInt8}
    (ht : t.Bracketed opening closing) (hb : opening.bracket? = some b)
    (hc : closing.bracket? = some c) :
    ∃ x mid y, t.children = x :: (mid ++ [y]) ∧ x.kind = .sign opening ∧
      y.kind = .sign closing ∧ src[t.start]? = some b ∧ src[t.stop - 1]? = some c ∧
      Row (t.start + 1) mid (t.stop - 1) := by
  obtain ⟨x, mid, y, hchildren, hx, hy, hstart, hstop⟩ := ht
  have hxl : Laid src x := h.of_mem_children (by rw [hchildren]; exact List.mem_cons_self)
  have hyl : Laid src y := h.of_mem_children (by rw [hchildren]; simp)
  obtain ⟨hxs, hxb⟩ := hxl.bracket hx hb
  obtain ⟨hys, hyb⟩ := hyl.bracket hy hc
  have hrow := h.row
  rw [hchildren] at hrow
  obtain ⟨_, _, hrest⟩ := hrow
  obtain ⟨m, hmid, hlast⟩ := hrest.of_append
  obtain ⟨hm, _, _⟩ := hlast
  refine ⟨x, mid, y, hchildren, hx, hy, hstart ▸ hxb, ?_, ?_⟩
  · rw [← hstop, hys, Nat.add_sub_cancel]
    exact hyb
  · exact hmid.mono (by omega) (by omega)

/-- A list of parameters or arguments starts with a parenthesis. -/
theorem opens_paren (h : Laid src t)
    (hk : t.kind = .parameterList ∨ t.kind = .argumentList) : src[t.start]? = some 0x28 := by
  obtain ⟨a, mid, b, hchildren, ha, _, hstart, _⟩ := h.shaped.parens hk
  have hal : Laid src a := h.of_mem_children (by rw [hchildren]; exact List.mem_cons_self)
  rw [← hstart]
  exact (hal.bracket ha rfl).2

end Laid

/-- The child that is found for a part is a child and plays it. -/
theorem mem_of_child? {t c : Tree} {r : Role} (h : t.child? r = some c) :
    c ∈ t.children ∧ c.role = some r :=
  ⟨List.mem_of_find?_eq_some h, by simpa using List.find?_some h⟩

/-- A declaration of a function or a method has parameters. -/
theorem Laid.exists_parameters {src : Bytes} {t : Tree} (h : Laid src t)
    (hk : t.kind.isFuncDecl = true) : ∃ list, t.child? .parameters = some list := by
  obtain ⟨c, hc, hrole⟩ := h.shaped.parameters hk
  exact Option.isSome_iff_exists.mp (List.find?_isSome.mpr ⟨c, hc, by simpa using hrole⟩)

end Tree

end Code

end CtxThread
