import CtxThread.Proofs.Import.Reading

/-!
# The tokens up to an offset

A text can be cut at any offset outside of all tokens, and at any offset it is known whether
imports are being read.

## Main definitions

- `Code.Token.Clear`: the offset is not inside a token
- `Code.Token.atomsTo`: what tells what is declared in front of an offset
- `Import.ReadTo`: what is being read at an offset

## Main statements

- `Code.cuts_to`, `Code.cuts_between`, `Code.cuts_from`: what a text is cut into at such offsets
- `Import.exists_readTo`: outside of import declarations no import is being read
-/

namespace CtxThread

open Code (Tree Token Kind Atom)
open Import (Mode Written)

namespace Code

theorem Stream.le_start {src : Bytes} {lo : Nat} {ts : List Token} (h : Stream src lo ts) :
    ∀ t ∈ ts, lo ≤ t.start := by
  induction ts generalizing lo with
  | nil => exact List.forall_mem_nil _
  | cons t ts ih =>
    obtain ⟨hlo, ht, hrest⟩ := h
    have hspan := ht.start_lt
    exact List.forall_mem_cons.mpr ⟨hlo, fun u hu => by have := ih hrest u hu; omega⟩

/-- Tokens come one after the other. -/
theorem Stream.pairwise {src : Bytes} {lo : Nat} {ts : List Token} (h : Stream src lo ts) :
    ts.Pairwise fun a b => a.stop ≤ b.start := by
  induction ts generalizing lo with
  | nil => exact .nil
  | cons t ts ih => exact .cons h.2.2.le_start (ih h.2.2)

/-- The tokens in front of an offset, and those from there on. -/
theorem Stream.split {src : Bytes} {lo : Nat} {ts : List Token} (h : Stream src lo ts) (p : Nat) :
    ts = ts.filter (·.start < p) ++ ts.filter (fun t => ¬ t.start < p) := by
  induction ts generalizing lo with
  | nil => rfl
  | cons t ts ih =>
    obtain ⟨-, ht, hrest⟩ := h
    by_cases hp : t.start < p
    · rw [List.filter_cons_of_pos (by simpa using hp), List.filter_cons_of_neg (by simpa using hp),
        List.cons_append, ← ih hrest]
    · have hall : ∀ u ∈ t :: ts, ¬ u.start < p := by
        intro u hu
        rcases List.mem_cons.mp hu with rfl | hu
        · exact hp
        · have := ht.start_lt
          have := hrest.le_start u hu
          omega
      rw [List.filter_eq_nil_iff.mpr (by simpa using hall),
        List.filter_eq_self.mpr (by simpa using hall), List.nil_append]

namespace Token

/-- Where the tokens of a text start: behind a byte order mark, if there is one. -/
def base (src : Bytes) : Nat := if byteOrderMark.isPrefixOf src then 3 else 0

theorem scan_eq_scanFrom (src : Bytes) :
    scan src = scanFrom src.length (base src) (src.drop (base src)) := by
  unfold scan base
  split <;> rfl

/-- What tells what is declared in front of an offset. -/
def atomsTo (src : Bytes) (p : Nat) : List Atom := atoms ((scan src).filter (·.start < p))

theorem atomsTo_length (src : Bytes) : atomsTo src src.length = atoms (scan src) := by
  rw [atomsTo, List.filter_eq_self.mpr fun t ht => ?_]
  have hlaid := (scan_stream src).laid_of_mem ht
  exact decide_eq_true (hlaid.start_lt.trans_le hlaid.stop_le)

end Token

/-- The offset is not inside a token that is scanned, line ends aside. -/
def Token.Clear (src : Bytes) (p : Nat) : Prop :=
  ∀ t ∈ scan src, t.lexeme ≠ .newline → p ≤ t.start ∨ t.stop ≤ p

theorem Tree.Clear.scanned {src : Bytes} {root : Tree} (hparse : parse? src = some root) {p : Nat}
    (h : root.Clear p) : Token.Clear src p :=
  fun _ ht hl => h.apart hparse ht hl

/-- Where an ASCII character stands, a byte order mark has ended. -/
theorem Token.base_le {src : Bytes} {i : Nat} {c : UInt8} (hget : src[i]? = some c)
    (hc : c < 0x80) : base src ≤ i := by
  unfold base
  split
  · next hmark =>
    obtain ⟨rest, rfl⟩ := List.isPrefixOf_iff_prefix.mp hmark
    by_contra hlt
    have hall : ∀ b ∈ byteOrderMark, ¬ b < 0x80 := by decide +kernel
    rw [List.getElem?_append_left (by rw [show byteOrderMark.length = 3 from rfl]; omega)] at hget
    exact hall c (List.mem_of_getElem? hget) hc
  · exact Nat.zero_le _

theorem Token.base_le_length (src : Bytes) : base src ≤ src.length := by
  unfold base
  split
  · next hmark => exact (List.isPrefixOf_iff_prefix.mp hmark).length_le
  · exact Nat.zero_le _

/-- The end of the text is outside of all tokens. -/
theorem Token.clear_length (src : Bytes) : Clear src src.length := by
  intro t ht _
  have := ((scan_stream src).laid_of_mem ht).stop_le
  omega

section Parsed

variable {src : Bytes} {root : Tree} (hparse : parse? src = some root) {p q : Nat}

include hparse

/-- The atoms up to an offset outside of all tokens are what the text is cut into there. -/
theorem cuts_to (hclear : Token.Clear src p) (hbase : Token.base src ≤ p) (hlen : p ≤ src.length) :
    Token.Cuts (src.drop p) (src.slice (Token.base src) p) (Token.atomsTo src p) := by
  have hscan := Token.scan_eq_scanFrom src
  rw [Token.atomsTo, hscan]
  refine Token.cuts_of_scanFrom (Nat.sub_le ..) hbase hlen ?_ ?_
  · rw [← hscan]
    exact fun t ht => (parse?_leaf hparse ht).1
  · rw [← hscan]
    exact hclear

/-- What the text is cut into between two offsets outside of all tokens. -/
theorem cuts_between (hp : Token.Clear src p) (hq : Token.Clear src q) (hbase : Token.base src ≤ p)
    (hpq : p ≤ q) (hlen : q ≤ src.length) :
    ∃ vs, Token.atomsTo src q = Token.atomsTo src p ++ vs ∧
      Token.Cuts (src.drop q) (src.slice p q) vs := by
  have hto := cuts_to hparse hp hbase (hpq.trans hlen)
  rw [Bytes.drop_eq_slice_append hpq hlen] at hto
  refine hto.split ?_
  rw [← Bytes.slice_append hbase hpq hlen]
  exact cuts_to hparse hq (hbase.trans hpq) hlen

/-- What the text is cut into from an offset outside of all tokens on. -/
theorem cuts_from (hp : Token.Clear src p) (hbase : Token.base src ≤ p) (hlen : p ≤ src.length) :
    ∃ vs, Token.atomsTo src src.length = Token.atomsTo src p ++ vs ∧
      Token.Cuts [] (src.drop p) vs := by
  obtain ⟨vs, hvs, hcuts⟩ := cuts_between hparse hp (Token.clear_length src) hbase hlen le_rfl
  rw [Bytes.slice, List.take_length, List.drop_length] at hcuts
  exact ⟨vs, hvs, hcuts⟩

end Parsed

end Code

namespace Import

/-- Reading the tokens in front of an offset ends in the mode `m`. -/
def ReadTo (src : Bytes) (p : Nat) (m : Mode) : Prop :=
  ∃ its, Mode.idle.read (Token.atomsTo src p) = some (m, its)

theorem ReadTo.unique {src : Bytes} {p : Nat} {m m' : Mode} (h : ReadTo src p m)
    (h' : ReadTo src p m') : m = m' := by
  obtain ⟨its, h⟩ := h
  obtain ⟨its', h'⟩ := h'
  rw [h] at h'
  exact congrArg Prod.fst (Option.some.inj h')

theorem ReadTo.read {src : Bytes} {p q : Nat} {m m' : Mode} (h : ReadTo src p m)
    (h' : ReadTo src q m') {vs : List Atom}
    (hvs : Token.atomsTo src q = Token.atomsTo src p ++ vs) :
    ∃ its, m.read vs = some (m', its) := by
  obtain ⟨its, h⟩ := h
  obtain ⟨its', h'⟩ := h'
  rw [hvs, Mode.read_append_of h] at h'
  obtain ⟨⟨m'', its''⟩, hr, heq⟩ := Option.map_eq_some_iff.mp h'
  obtain rfl : m'' = m' := congrArg Prod.fst heq
  exact ⟨its'', hr⟩

section Parsed

variable {src : Bytes} {root : Tree} (hparse : Code.parse? src = some root)

include hparse

/-- Outside of import declarations no import is being read. -/
theorem exists_readTo (p : Nat) : ∃ m, ReadTo src p m ∧ (m = .idle ∨
    ∃ d ∈ root.children, d.kind = .importDeclaration ∧ d.start < p ∧ p < d.stop) := by
  obtain ⟨its, _, _, hsplit⟩ := Code.parse?_imports hparse
  obtain ⟨m, a, hread, hmode⟩ := hsplit _ _ ((Code.Token.scan_stream src).split p)
  refine ⟨m, ⟨a, hread⟩, hmode.imp_right ?_⟩
  rintro ⟨d, hd, hk, ⟨u, hu, hstart⟩, v, hv, hstop⟩
  have hup := of_decide_eq_true (List.mem_filter.mp hu).2
  have hvp := of_decide_eq_true (List.mem_filter.mp hv).2
  have := ((Code.Token.scan_stream src).laid_of_mem (List.mem_filter.mp hv).1).start_lt
  exact ⟨d, hd, hk, by omega, by omega⟩

theorem readTo_length : ReadTo src src.length .idle := by
  obtain ⟨its, hread, _⟩ := Code.parse?_imports hparse
  exact ⟨its, by rw [Token.atomsTo_length, hread]⟩

end Parsed

end Import

end CtxThread
