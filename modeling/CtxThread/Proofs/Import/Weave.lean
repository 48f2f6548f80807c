import CtxThread.Proofs.Import.Marks
import CtxThread.Proofs.Code.Comments
import CtxThread.Proofs.Edit.Order

/-!
# Imports of an edited text

Edits that stand outside of import declarations and hold no keyword of imports leave the imports of
a text as they are, and an import that is added is read besides. This is shown along the edits in
the order of the text: behind each of them the text is cut into the atoms it was cut into before.

## Main definitions

- `Import.Grows`: atoms that read alike, but for imports of the context that are added
- `Edit.Tame`: an edit between two tokens
- `Edit.Buried`: an edit inside a comment
- `Edit.Fine`: an edit that leaves the imports alone, or adds one
- `Edit.Meets`: an edit that another may stand right behind

## Main statements

- `Import.Grows.read`: what is read off grown atoms
- `Edit.weaves`: applying edits lets the atoms grow
-/

namespace CtxThread

open Code (Tree Token Kind Atom)
open Code.Token (Cuts Seam EndsName commentClose? next)

namespace Import

/-- The import of the context package as it is written. -/
def added : Written := ⟨none, Bytes.ofString "\"context\""⟩

/-- What the import group is cut into. -/
def addedAtoms : List Atom :=
  [(.sign .kwImport, Bytes.ofString "import"), (.sign .lparen, Bytes.ofString "("),
    (.literal .interpretedStringLiteral, Bytes.ofString "\"context\""),
    (.sign .rparen, Bytes.ofString ")")]

/-- No import is announced by these atoms. -/
def Plain (ws : List Atom) : Prop := ∀ w ∈ ws, w.1 ≠ .sign .kwImport

/-- The second list of atoms is the first but for atoms outside of imports, and `n` imports of the
context package come with it. -/
inductive Grows : Nat → Mode → List Atom → List Atom → Prop
  | same (m : Mode) (ws : List Atom) : Grows 0 m ws ws
  | keep {n : Nat} {m m' : Mode} {vs ws ws' : List Atom} {its : List Written}
      (h : m.read vs = some (m', its)) (hrest : Grows n m' ws ws') :
      Grows n m (vs ++ ws) (vs ++ ws')
  | swap {n : Nat} {vs vs' ws ws' : List Atom} (hvs : Plain vs) (hvs' : Plain vs')
      (hrest : Grows n .idle ws ws') : Grows n .idle (vs ++ ws) (vs' ++ ws')
  | add {n : Nat} {m : Mode} {ws ws' : List Atom} (hrest : Grows n m ws ws') :
      Grows (n + 1) m ws (addedAtoms ++ ws')

/-- Off grown atoms the same imports are read, and those of the context package that have been
added. -/
theorem Grows.read {n : Nat} {m mE : Mode} {ws ws' : List Atom} {its : List Written}
    (h : Grows n m ws ws') (hread : m.read ws = some (mE, its)) {r : Mode × List Written}
    (hread' : m.read ws' = some r) :
    r.1 = mE ∧ r.2.Perm (its ++ List.replicate n added) := by
  induction h generalizing its r with
  | same m ws =>
    obtain rfl := Option.some.inj (hread.symm.trans hread')
    simp
  | @keep n m m' vs ws ws' a hvs _ ih =>
    rw [Mode.read_append_of hvs] at hread hread'
    obtain ⟨⟨m₁, b⟩, hb, heq⟩ := Option.map_eq_some_iff.mp hread
    obtain ⟨⟨m₂, b'⟩, hb', rfl⟩ := Option.map_eq_some_iff.mp hread'
    obtain ⟨rfl, rfl⟩ := Prod.ext_iff.mp heq
    obtain ⟨hm, hperm⟩ := ih hb hb'
    exact ⟨hm, by rw [List.append_assoc]; exact hperm.append_left a⟩
  | swap hvs hvs' _ ih =>
    rw [Mode.read_append_of (Mode.read_idle hvs)] at hread
    rw [Mode.read_append_of (Mode.read_idle hvs')] at hread'
    exact ih (by simpa using hread) (by simpa using hread')
  | @add n m ws ws' _ ih =>
    cases m with
    | opened grouped name? => cases hread'
    | idle =>
      have hadded : Mode.idle.read addedAtoms = some (.idle, [added]) := rfl
      rw [Mode.read_append_of hadded] at hread'
      obtain ⟨⟨m₂, b'⟩, hb', rfl⟩ := Option.map_eq_some_iff.mp hread'
      obtain ⟨hm, hperm⟩ := ih hread hb'
      refine ⟨hm, (hperm.cons added).trans ?_⟩
      rw [List.replicate_succ]
      exact List.perm_middle.symm

end Import

open Import (Mode Written Plain Grows ReadTo addedAtoms)

namespace Edit

/-- The text ends where a name ends, or the byte that follows ends one. -/
def Stops (x b : Bytes) : Prop := (∀ c ∈ x.getLast?, EndsName c) ∨ ∀ c ∈ b.head?, EndsName c

/-- The bytes from `p` to `q`, which are outside of all tokens, are replaced by `x`. Nothing changes
for the token in front of them. -/
structure Tame (src : Bytes) (p q : Nat) (x : Bytes) : Prop where
  le : p ≤ q
  stop_le : q ≤ src.length
  start : Token.Clear src p
  stop : Token.Clear src q
  nul : 0x00 ∉ src.slice p q
  starless : 0x2A ∉ x
  slash : x.head? ≠ some 0x2F
  joins : p = 0 ∨
    (∃ i c, p = i + 1 ∧ src[i]? = some c ∧ Bytes.isGuard c = true ∧ Token.Clear src i) ∨
    ∀ b, Seam (src.drop p) (x ++ b)
  stops : Stops x (src.drop q)

/-- At `p`, inside a comment and behind a line end, `x` is inserted. -/
structure Buried (src : Bytes) (p : Nat) (x : Bytes) : Prop where
  comment : ∃ t ∈ Token.scan src, t.lexeme = .comment ∧ t.start < p ∧ p < t.stop
  line : ∃ i, p = i + 1 ∧ src[i]? = some Bytes.lineFeed
  starless : 0x2A ∉ x
  nul : 0x00 ∉ x

/-- Outside of imports, text without imports comes in place of text without imports. -/
structure Harmless (src : Bytes) (p q : Nat) (x : Bytes) : Prop where
  idle : ReadTo src p .idle
  replaced : ∀ vs, Cuts (src.drop q) (src.slice p q) vs → Plain vs
  cuts : ∀ b, Stops x b → ∃ us, Cuts b x us ∧ Plain us

/-- The import of the context package is inserted. -/
structure Gains (p q : Nat) (x : Bytes) : Prop where
  insertion : p = q
  cuts : ∀ b, Cuts b x addedAtoms

/-- The edit inserts the import group. -/
def isGroup (e : Edit) : Bool :=
  e.text = "\n\n" ++ ContextImport.group || e.text = ContextImport.group ++ "\n\n"

/-- What holds no quotation mark is no import group. -/
theorem isGroup_eq_false {e : Edit} (h : 0x22 ∉ Bytes.ofString e.text) : e.isGroup = false := by
  have hgroups : ∀ x ∈ ["\n\n" ++ ContextImport.group, ContextImport.group ++ "\n\n"],
      (0x22 : UInt8) ∈ Bytes.ofString x := by
    decide +kernel
  rw [isGroup, Bool.or_eq_false_iff, decide_eq_false_iff_not, decide_eq_false_iff_not]
  constructor
  · intro heq
    exact h (heq ▸ hgroups _ (by simp))
  · intro heq
    exact h (heq ▸ hgroups _ (by simp))

/-- What tells whether the text of an edit may come right behind another: it starts and ends where
names end, it is the first of all, it is a longer name, or it is the first element of a list. -/
inductive Manner (src : Bytes) (e : Edit) : Prop
  | spaced (opens : ∀ c ∈ (Bytes.ofString e.text).head?, EndsName c)
      (ends : ∀ c ∈ (Bytes.ofString e.text).getLast?, EndsName c)
  | front (start : e.start = 0) (ends : ∀ c ∈ (Bytes.ofString e.text).getLast?, EndsName c)
  | name (p q : Nat) (start : e.start = p) (stop : e.stop = q + 1) (le : p ≤ q)
      (head : (Bytes.ofString e.text).head? = src[p]?)
      (last : src[q]? ≠ some 0x28) (stops : Stops (Bytes.ofString e.text) (src.drop (q + 1)))
  | leader (i : Nat) (start : e.start = i + 1) (stop : e.stop = i + 1)
      (head : (Bytes.ofString e.text).head? = some 0x63) (paren : src[i]? = some 0x28)
      (stops : Stops (Bytes.ofString e.text) (src.drop (i + 1)))

/-- An edit that leaves the imports alone, or adds one if it inserts the import group. -/
structure Fine (src : Bytes) (e : Edit) : Prop where
  ne_nil : Bytes.ofString e.text ≠ []
  manner : Manner src e
  place : ∃ p q : Nat, e.start = p ∧ e.stop = q ∧ Token.base src ≤ p ∧
    ((Tame src p q (Bytes.ofString e.text) ∧
        (if e.isGroup then Gains p q (Bytes.ofString e.text)
          else Harmless src p q (Bytes.ofString e.text))) ∨
      (e.isGroup = false ∧ p = q ∧ Buried src p (Bytes.ofString e.text)))

/-- A text that comes right behind another does not go on with a name that it ends with. -/
def Meets (a b : Edit) : Prop :=
  b.start = a.stop → Stops (Bytes.ofString a.text) (Bytes.ofString b.text)

/-- No two lists gain a first element at one place. -/
def Unshared (a b : Edit) : Prop :=
  (Bytes.ofString a.text).head? = some 0x63 → (Bytes.ofString b.text).head? = some 0x63 →
    a.start ≠ b.start

instance : Std.Symm Unshared := ⟨fun _ _ h hb ha => (h ha hb).symm⟩

/-- Edits that gain no two elements at one place may stand next to each other. -/
theorem Manner.meets {src : Bytes} {a b : Edit} (ha : Manner src a) (hb : Manner src b)
    (hshare : Unshared a b) : Meets a b := by
  intro hab
  cases ha with
  | spaced _ ends => exact .inl ends
  | front _ ends => exact .inl ends
  | name p q start stop le head last stops =>
    cases hb with
    | spaced opens _ => exact .inr opens
    | front start' _ => omega
    | name p' q' start' _ _ head' _ _ =>
      obtain rfl : p' = q + 1 := by omega
      rwa [Stops, head', ← List.head?_drop]
    | leader i start' _ _ paren _ =>
      obtain rfl : i = q := by omega
      exact absurd paren last
  | leader i start stop head paren stops =>
    cases hb with
    | spaced opens _ => exact .inr opens
    | front start' _ => omega
    | name p' q' start' _ _ head' _ _ =>
      obtain rfl : p' = i + 1 := by omega
      rwa [Stops, head', ← List.head?_drop]
    | leader i' start' _ head' _ _ => exact absurd (by omega) (hshare head head')

/-- Applying edits in order goes on behind the first of them. -/
theorem weave_cons_eq_ok {src : Bytes} {lo : Int} {e : Edit} {es : List Edit} {out : Bytes}
    (h : weave src lo (e :: es) = .ok out) : lo ≤ e.start ∧ ∃ tail, weave src e.stop es = .ok tail ∧
      out = src.between lo e.start ++ (Bytes.ofString e.text ++ tail) := by
  rw [weave] at h
  split at h
  · cases h
  · next hle =>
    cases htail : weave src e.stop es with
    | error o => rw [htail] at h; cases h
    | ok tail =>
      rw [htail] at h
      cases h
      exact ⟨by omega, tail, rfl, List.append_assoc ..⟩

/-- The text behind the edits so far opens as before, or with the next edit. -/
theorem head_weave {src : Bytes} {lo : Nat} {es : List Edit} {out : Bytes}
    (hlo : lo ≤ src.length) (hes : ∀ e ∈ es, Bytes.ofString e.text ≠ [] ∧ e.start ≤ src.length)
    (h : weave src lo es = .ok out) {c : UInt8} (hc : c ∈ out.head?) :
    c ∈ (src.drop lo).head? ∨ ∃ e ∈ es, e.start = lo ∧ c ∈ (Bytes.ofString e.text).head? := by
  cases es with
  | nil =>
    cases h
    rw [Bytes.suffix_natCast hlo] at hc
    exact .inl hc
  | cons e es =>
    obtain ⟨hne, hlen⟩ := hes e List.mem_cons_self
    obtain ⟨hle, tail, -, rfl⟩ := weave_cons_eq_ok h
    obtain ⟨p, hp⟩ := Int.eq_ofNat_of_zero_le (show 0 ≤ e.start by omega)
    rw [hp, Bytes.between_natCast (by omega) (by omega)] at hc
    by_cases heq : lo = p
    · subst heq
      rw [Bytes.slice_self, List.nil_append, List.head?_append_of_ne_nil _ hne] at hc
      exact .inr ⟨e, List.mem_cons_self, hp, hc⟩
    · left
      have hpl : p ≤ src.length := by omega
      have hslice : src.slice lo p ≠ [] := by
        intro hnil
        have := congrArg List.length hnil
        rw [Bytes.length_slice, List.length_nil] at this
        omega
      rw [Bytes.drop_eq_slice_append (show lo ≤ p by omega) hpl,
        List.head?_append_of_ne_nil _ hslice]
      rwa [List.head?_append_of_ne_nil _ hslice] at hc

/-- What has been cut up to a guard stays so, whatever comes behind the guard. -/
theorem cuts_guard {c : UInt8} (hc : Bytes.isGuard c = true) :
    ∃ us, ∀ b, Cuts b [c] us := by
  simp only [Bytes.isGuard, Bool.or_eq_true, decide_eq_true_eq] at hc
  have hsign : ∀ {s : Code.Sign} {c : UInt8}, Bytes.isBlank c = false →
      (∀ b, next (c :: b) = ⟨.sign s, 1, []⟩) →
      ∃ us, ∀ b, Cuts b [c] us := by
    intro s c hblank hnext
    refine ⟨Token.atomOf (.sign s) [c] ++ [], fun b => ?_⟩
    refine Cuts.cons (x := [c]) (a := []) (s := ⟨.sign s, 1, []⟩) (fun d hd => ?_) (hnext _) rfl
      (by simp) .done
    rw [← Option.some.inj hd]
    exact hblank
  rcases hc with (rfl | rfl) | rfl
  · exact hsign rfl Token.next_lparen
  · refine hsign (s := .lbrace) rfl fun b => ?_
    rw [Token.next_of_isFrank (by decide)]
    rfl
  · exact ⟨[], fun b => .blank rfl .done⟩

theorem seam_guard {c : UInt8} (hc : Bytes.isGuard c = true) (b b' : Bytes) :
    Seam (c :: b) (c :: b') := by
  simp only [Bytes.isGuard, Bool.or_eq_true, decide_eq_true_eq] at hc
  rcases hc with (rfl | rfl) | rfl
  · exact ⟨rfl, .inl rfl, fun d hd => by rw [← Option.some.inj hd]; decide⟩
  · exact ⟨rfl, .inl rfl, fun d hd => by rw [← Option.some.inj hd]; decide⟩
  · exact ⟨rfl, .inl rfl, fun d hd => by rw [← Option.some.inj hd]; decide⟩

section Steps

variable {src : Bytes} {root : Tree} (hparse : Code.parse? src = some root) {lo p q : Nat}
  {x : Bytes}

include hparse

/-- What stands in front of an edit is cut into the same atoms as before. -/
theorem Tame.cuts_before (h : Tame src p q x) (hlo : Token.Clear src lo)
    (hbase : Token.base src ≤ lo) (hle : lo ≤ p) {vs : List Atom}
    (hvs : Cuts (src.drop p) (src.slice lo p) vs) {b : Bytes}
    (hclose : commentClose? (src.drop p) = none → commentClose? (x ++ b) = none) :
    Cuts (x ++ b) (src.slice lo p) vs := by
  have hlen := h.le.trans h.stop_le
  rcases hle.eq_or_lt with rfl | hlt
  · rw [Bytes.slice_self] at hvs ⊢
    cases hvs
    exact .done
  rcases h.joins with rfl | ⟨i, c, rfl, hget, hguard, hclear⟩ | hseam
  · omega
  · have hopen : src.drop i = c :: src.drop (i + 1) := by
      obtain ⟨hi, hget⟩ := List.getElem?_eq_some_iff.mp hget
      rw [List.drop_eq_getElem_cons hi, hget]
    have hplain : c ≠ 0x2A ∧ c ≠ 0x00 := by
      simp only [Bytes.isGuard, Bool.or_eq_true, decide_eq_true_eq] at hguard
      rcases hguard with (rfl | rfl) | rfl <;> decide
    obtain ⟨us, hus⟩ := cuts_guard hguard
    obtain ⟨vs', -, hvs'⟩ := Code.cuts_between hparse hlo hclear hbase (by omega) (by omega)
    rw [hopen] at hvs'
    rw [Bytes.slice_succ (by omega) hget] at hvs ⊢
    obtain rfl : vs = vs' ++ us :=
      List.append_cancel_right (hvs.atomsOf_eq.symm.trans (hvs'.append (hus _)).atomsOf_eq)
    refine (hvs'.seam (seam_guard hguard _ (x ++ b)) fun _ hnone => ?_).append (hus _)
    have hrest := Token.commentClose?_eq_none_of_append (x := [c])
      (by simpa using hplain.2.symm) hnone
    exact Token.commentClose?_append_eq_none_of_not_mem (x := [c]) (by simpa using hplain.1.symm)
      (hclose hrest)
  · exact hvs.seam (hseam b) fun _ => hclose

omit hparse in
/-- A comment that is not closed behind an edit is not closed in front of it either. -/
theorem Tame.close (h : Tame src p q x) {b : Bytes}
    (hclose : commentClose? (src.drop q) = none → commentClose? b = none)
    (hnone : commentClose? (src.drop p) = none) : commentClose? (x ++ b) = none := by
  rw [Bytes.drop_eq_slice_append h.le h.stop_le] at hnone
  exact Token.commentClose?_append_eq_none_of_not_mem h.starless
    (hclose (Token.commentClose?_eq_none_of_append h.nul hnone))

/-- A comment of a text ends outside of all tokens. -/
theorem clear_comment {t : Token} (ht : t ∈ Token.scan src) (hl : t.lexeme = .comment) :
    Token.Clear src t.start ∧ Token.Clear src t.stop := by
  obtain ⟨y, hy, hstart, hstop, hsuits, -⟩ := (Code.parse?_leaf hparse ht).2 (by rw [hl]; simp)
  rw [← hstart, ← hstop]
  obtain ⟨h, h'⟩ := Code.clear_of_isInner hparse hy
    (Code.Kind.isInner_of_isToken (Code.Lexeme.isToken_of_suits hsuits))
  exact ⟨fun t ht hl => h.apart hparse ht hl, fun t ht hl => h'.apart hparse ht hl⟩

/-- The atoms of what is left of a text, cut at an offset outside of all tokens. -/
theorem split_at (hlo : Token.Clear src lo) (hp : Token.Clear src p) (hbase : Token.base src ≤ lo)
    (hle : lo ≤ p) (hlen : p ≤ src.length) {ws : List Atom} (hws : Cuts [] (src.drop lo) ws) :
    ∃ vs ws', ws = vs ++ ws' ∧ Token.atomsTo src p = Token.atomsTo src lo ++ vs ∧
      Cuts (src.drop p) (src.slice lo p) vs ∧ Cuts [] (src.drop p) ws' := by
  obtain ⟨vs, hto, hvs⟩ := Code.cuts_between hparse hlo hp hbase hle hlen
  have hfront := hvs
  rw [← List.append_nil (src.drop p)] at hfront
  rw [Bytes.drop_eq_slice_append hle hlen] at hws
  obtain ⟨ws', rfl, hws'⟩ := hfront.split hws
  exact ⟨vs, ws', rfl, hto, hvs, hws'⟩

omit hparse

/-- A comment up to a line end in it is closed by what closes the comment behind that. -/
theorem close_slice {n : Nat} (h : commentClose? (src.drop lo) = some n) (hle : lo ≤ p)
    (hpn : p < lo + n) (hp : p = lo ∨ ∃ i, p = i + 1 ∧ src[i]? = some Bytes.lineFeed) (b : Bytes) :
    commentClose? (src.slice lo p ++ b) = (commentClose? b).map (· + (p - lo)) := by
  have hn := Token.commentClose?_le h
  rw [List.length_drop] at hn
  have hlen : (src.slice lo p).length = p - lo := by
    rw [Bytes.length_slice]
    omega
  rw [← hlen]
  rw [Bytes.drop_eq_slice_append hle (by omega)] at h
  refine Token.commentClose?_append_of_lt h (by omega) ?_ b
  rcases hp with rfl | ⟨i, rfl, hi⟩
  · rw [Bytes.slice_self]
    simp
  · rcases hle.eq_or_lt with rfl | hlt
    · rw [Bytes.slice_self]
      simp
    · rw [Bytes.slice_succ (by omega) hi, List.getLast?_concat]
      decide

/-- A comment that text is inserted into goes on with the text and what is made of its rest. -/
theorem close_buried (h : Buried src p x) {k : Nat} (hk : commentClose? (src.drop lo) = some k)
    (hle : lo ≤ p) (hpk : p < lo + k) {tail : Bytes} {n : Nat} (hn : commentClose? tail = some n) :
    commentClose? (src.slice lo p ++ (x ++ tail)) = some (n + x.length + (p - lo)) ∧
      (src.slice lo p ++ (x ++ tail)).drop (n + x.length + (p - lo)) = tail.drop n := by
  have hlen := Token.commentClose?_le hk
  rw [List.length_drop] at hlen
  have hlength : (src.slice lo p).length = p - lo := by
    rw [Bytes.length_slice]
    omega
  constructor
  · rw [close_slice hk hle hpk (.inr h.line),
      Token.commentClose?_append_of_not_mem h.starless h.nul, hn]
    rfl
  · rw [show n + x.length + (p - lo) = (src.slice lo p).length + (x.length + n) by omega,
      List.drop_length_add_append, List.drop_length_add_append]

theorem next_block {r : Bytes} {n : Nat} (h : commentClose? r = some n) :
    next (0x2F :: 0x2A :: r) = ⟨.comment, 2 + n, []⟩ := by
  have hcomment : Token.comment? (0x2F :: 0x2A :: r) = some (2 + n) := by
    simp [Token.comment?, h]
  simp [next, Code.Number.opens, Bytes.lineFeed, hcomment]

/-- A comment is cut into no atoms. -/
theorem cuts_block {r b : Bytes} {n : Nat} (h : commentClose? (r ++ b) = some n) {ws : List Atom}
    (hle : n ≤ r.length) (hws : Cuts b (r.drop n) ws) : Cuts b (0x2F :: 0x2A :: r) ws := by
  have hdrop : (0x2F :: 0x2A :: r).drop (2 + n) = r.drop n := by
    rw [Nat.add_comm]
    rfl
  refine Cuts.token (s := ⟨.comment, 2 + n, []⟩) rfl ?_ ?_ (by simp) (hdrop.symm ▸ hws)
  · exact next_block h
  · simp only [List.length_cons]
    omega

theorem seam_block {r : Bytes} (h : commentClose? r ≠ none) (r' : Bytes) :
    Seam (0x2F :: 0x2A :: r) (0x2F :: 0x2A :: r') ∧ commentClose? (0x2F :: 0x2A :: r) ≠ none := by
  refine ⟨⟨rfl, .inl rfl, fun d hd => by rw [← Option.some.inj hd]; decide⟩, ?_⟩
  rw [commentClose?, if_neg (by decide), if_neg (by simp), commentClose?, if_neg (by decide)]
  split
  · simp
  · simpa using h

/-- The place is inside the comment, behind a line end. -/
structure Within (src : Bytes) (t : Token) (p : Nat) : Prop where
  mem : t ∈ Token.scan src
  comment : t.lexeme = .comment
  start : t.start < p
  stop : p < t.stop
  line : ∃ i, p = i + 1 ∧ src[i]? = some Bytes.lineFeed

namespace Within

variable {t : Token} (h : Within src t p)

include h

/-- The comment is one between a slash with a star and a star with a slash. -/
theorem block : src.drop t.start = 0x2F :: 0x2A :: src.drop (t.start + 2) ∧ t.start + 2 < p ∧
    commentClose? (src.drop (t.start + 2)) = some (t.stop - (t.start + 2)) := by
  obtain ⟨i, rfl, hi⟩ := h.line
  have hstart := h.start
  have hstop := h.stop
  obtain ⟨hdrop, hlt, hclose⟩ :=
    Token.block_of_lineFeed h.mem h.comment hi (by omega) (by omega)
  exact ⟨hdrop, by omega, hclose⟩

theorem stop_le : t.stop ≤ src.length := ((Token.scan_stream src).laid_of_mem h.mem).stop_le

theorem close : commentClose? (src.drop p) = some (t.stop - p) := by
  obtain ⟨-, hlt, hclose⟩ := h.block
  have hstop := h.stop
  have hslice := close_slice hclose hlt.le (by omega) (.inr h.line) (src.drop p)
  rw [← Bytes.drop_eq_slice_append hlt.le (hstop.le.trans h.stop_le), hclose] at hslice
  obtain ⟨n, hn, heq⟩ := Option.map_eq_some_iff.mp hslice.symm
  rw [hn]
  congr 1
  omega

/-- The whole comment is cut into no atoms. -/
theorem cuts : Cuts (src.drop t.stop) (src.slice t.start t.stop) [] := by
  obtain ⟨hdrop, hlt, hclose⟩ := h.block
  have hstop := h.stop
  have hlen := h.stop_le
  have hslice : src.slice t.start t.stop =
      0x2F :: 0x2A :: src.slice (t.start + 2) t.stop := by
    rw [Bytes.slice, List.drop_take, hdrop,
      show t.stop - t.start = t.stop - (t.start + 2) + 2 by omega, List.take_succ_cons,
      List.take_succ_cons, Bytes.slice, List.drop_take]
  have hlength : (src.slice (t.start + 2) t.stop).length = t.stop - (t.start + 2) := by
    rw [Bytes.length_slice]
    omega
  rw [hslice]
  refine cuts_block (n := t.stop - (t.start + 2)) ?_ hlength.ge ?_
  · rw [← Bytes.drop_eq_slice_append (by omega) hlen]
    exact hclose
  · rw [List.drop_eq_nil_of_le hlength.le]
    exact .done

end Within

end Steps

/-! ## Applying edits -/

section Weaving

variable {src : Bytes} {root : Tree}

/-- What applying edits from an offset on leaves of the atoms, if that is outside of all tokens. -/
def Weaves (src : Bytes) (es : List Edit) : Prop :=
  ∀ (lo : Nat) (m : Mode) (ws : List Atom) (out : Bytes), Token.base src ≤ lo → lo ≤ src.length →
    Token.Clear src lo → ReadTo src lo m → Cuts [] (src.drop lo) ws → weave src lo es = .ok out →
    (∃ ws', Cuts [] out ws' ∧ Grows (es.countP isGroup) m ws ws') ∧
      (commentClose? (src.drop lo) = none → commentClose? out = none)

/-- The same inside a comment, which stays one. -/
def WeavesWithin (src : Bytes) (es : List Edit) : Prop :=
  ∀ (lo : Nat) (t : Token) (m : Mode) (ws : List Atom) (out : Bytes), Within src t lo →
    ReadTo src t.stop m → Cuts [] (src.drop t.stop) ws → weave src lo es = .ok out →
    ∃ n ws', commentClose? out = some n ∧ Cuts [] (out.drop n) ws' ∧
      Grows (es.countP isGroup) m ws ws'

variable (hparse : Code.parse? src = some root) {e : Edit} {es : List Edit} {p q : Nat}

/-- A token is followed by what would follow it if nothing more was planned in it. -/
theorem weave_jump {lo mid : Nat} {out : Bytes} (hle : lo ≤ mid) (hmid : mid ≤ src.length)
    (hes : ∀ e ∈ es.head?, (mid : Int) ≤ e.start ∧ e.start ≤ src.length)
    (h : weave src lo es = .ok out) :
    ∃ out', weave src mid es = .ok out' ∧ out = src.slice lo mid ++ out' := by
  cases es with
  | nil =>
    cases h
    refine ⟨_, rfl, ?_⟩
    rw [Bytes.suffix_natCast hmid, Bytes.suffix_natCast (hle.trans hmid),
      Bytes.drop_eq_slice_append hle hmid]
  | cons e es =>
    obtain ⟨hstart, hlen⟩ := hes e rfl
    obtain ⟨-, tail, htail, rfl⟩ := weave_cons_eq_ok h
    refine ⟨_, weave_cons_ok hstart htail, ?_⟩
    rw [Bytes.between_append (b := mid) (by omega) (by omega) hstart hlen,
      Bytes.between_natCast hle hmid]
    simp only [List.append_assoc]

/-- What comes behind an edit may follow it. -/
theorem stops_of_meets {tail : Bytes} (hstops : Stops (Bytes.ofString e.text) (src.drop q))
    (hstop : e.stop = q) (hq : q ≤ src.length) (hmeets : ∀ b ∈ es, Meets e b)
    (hes : ∀ b ∈ es, Bytes.ofString b.text ≠ [] ∧ b.start ≤ src.length)
    (htail : weave src q es = .ok tail) : Stops (Bytes.ofString e.text) tail := by
  by_cases hlast : ∀ c ∈ (Bytes.ofString e.text).getLast?, EndsName c
  · exact .inl hlast
  · refine .inr fun c hc => ?_
    rcases head_weave hq hes htail hc with hhead | ⟨b, hb, hstart, hhead⟩
    · exact hstops.resolve_left hlast c hhead
    · exact (hmeets b hb (hstart.trans hstop.symm)).resolve_left hlast c hhead

include hparse

/-- Edits behind one that stands between two tokens. -/
theorem Weaves.cons_tame (htame : Tame src p q (Bytes.ofString e.text))
    (hfine : if e.isGroup then Gains p q (Bytes.ofString e.text)
      else Harmless src p q (Bytes.ofString e.text))
    (hne : Bytes.ofString e.text ≠ []) (hstart : e.start = p) (hstop : e.stop = q)
    (hends : ∀ tail, weave src q es = .ok tail → Stops (Bytes.ofString e.text) tail)
    (ih : Weaves src es) {lo : Nat} {m : Mode} {ws : List Atom} {out : Bytes}
    (hbase : Token.base src ≤ lo) (hclear : Token.Clear src lo) (hmode : ReadTo src lo m)
    (hws : Cuts [] (src.drop lo) ws) (h : weave src lo (e :: es) = .ok out) :
    (∃ ws', Cuts [] out ws' ∧ Grows ((e :: es).countP isGroup) m ws ws') ∧
      (commentClose? (src.drop lo) = none → commentClose? out = none) := by
  obtain ⟨hle, tail, htail, rfl⟩ := weave_cons_eq_ok h
  rw [hstart] at hle ⊢
  rw [hstop] at htail
  have hlo : lo ≤ p := by omega
  have hp : p ≤ src.length := htame.le.trans htame.stop_le
  have hstops := hends tail htail
  generalize Bytes.ofString e.text = x at htame hfine hne hstops ⊢
  rw [Bytes.between_natCast hlo hp]
  -- the atoms in front of the edit, those it replaces, and those behind it
  obtain ⟨vs, ws₁, rfl, hto, hvs, hws₁⟩ := split_at hparse hclear htame.start hbase hlo hp hws
  obtain ⟨rs, ws₂, rfl, hto', hrs, hws₂⟩ :=
    split_at hparse htame.start htame.stop (hbase.trans hlo) htame.le htame.stop_le hws₁
  obtain ⟨m₁, hm₁, -⟩ := Import.exists_readTo hparse p
  obtain ⟨m₂, hm₂, -⟩ := Import.exists_readTo hparse q
  obtain ⟨its, hits⟩ := hmode.read hm₁ hto
  obtain ⟨its', hits'⟩ := hm₁.read hm₂ hto'
  obtain ⟨⟨ws', hout, hgrows⟩, hclose⟩ := ih q m₂ ws₂ tail (hbase.trans (hlo.trans htame.le))
    htame.stop_le htame.stop hm₂ hws₂ htail
  have hclose' := htame.close hclose
  have hbefore := htame.cuts_before hparse hclear hbase hlo hvs hclose'
  have hassemble : ∀ {us : List Atom}, Cuts tail x us →
      Cuts [] (src.slice lo p ++ (x ++ tail)) (vs ++ (us ++ ws')) := by
    intro us hus
    rw [← List.append_nil tail] at hus
    rw [← List.append_nil (x ++ tail)] at hbefore
    exact hbefore.append (hus.append hout)
  refine ⟨?_, ?_⟩
  · cases hgroup : e.isGroup with
    | true =>
      rw [hgroup, if_pos rfl] at hfine
      obtain ⟨rfl, hcuts⟩ := hfine
      rw [Bytes.slice_self] at hrs
      cases hrs
      obtain rfl := hm₁.unique hm₂
      refine ⟨_, hassemble (hcuts tail), ?_⟩
      rw [List.countP_cons_of_pos hgroup]
      exact .keep hits (.add hgrows)
    | false =>
      rw [hgroup, if_neg (by decide)] at hfine
      obtain ⟨us, hus, hplain⟩ := hfine.cuts tail hstops
      obtain rfl := hm₁.unique hfine.idle
      have hrsPlain := hfine.replaced rs hrs
      rw [Mode.read_idle hrsPlain] at hits'
      obtain rfl : Mode.idle = m₂ := congrArg Prod.fst (Option.some.inj hits')
      refine ⟨_, hassemble hus, ?_⟩
      rw [List.countP_cons_of_neg (by simp [hgroup])]
      exact .keep hits (.swap hrsPlain hplain hgrows)
  · rw [Bytes.drop_eq_slice_append hlo hp]
    refine Token.commentClose?_append_eq_none hclose' fun hslash => ?_
    rw [List.head?_append_of_ne_nil _ hne] at hslash
    exact absurd hslash htame.slash

/-- Edits behind one inside a comment that starts further on. -/
theorem Weaves.cons_buried (hburied : Buried src p (Bytes.ofString e.text))
    (hgroup : e.isGroup = false) (hstart : e.start = p) (hstop : e.stop = p)
    (ih : WeavesWithin src es) {lo : Nat} {m : Mode} {ws : List Atom} {out : Bytes}
    (hbase : Token.base src ≤ lo)
    (hclear : Token.Clear src lo) (hmode : ReadTo src lo m) (hws : Cuts [] (src.drop lo) ws)
    (h : weave src lo (e :: es) = .ok out) :
    (∃ ws', Cuts [] out ws' ∧ Grows ((e :: es).countP isGroup) m ws ws') ∧
      (commentClose? (src.drop lo) = none → commentClose? out = none) := by
  obtain ⟨t, ht, hl, htp, hpt⟩ := hburied.comment
  have hwithin : Within src t p := ⟨ht, hl, htp, hpt, hburied.line⟩
  obtain ⟨hle, tail, htail, rfl⟩ := weave_cons_eq_ok h
  rw [hstart] at hle ⊢
  rw [hstop] at htail
  have hlot : lo ≤ t.start := by
    rcases hclear t ht (by rw [hl]; simp) with h | h
    · exact h
    · omega
  have htstop := hwithin.stop_le
  obtain ⟨hclearStart, hclearStop⟩ := clear_comment hparse ht hl
  generalize Bytes.ofString e.text = x at hburied ⊢
  rw [Bytes.between_natCast (by omega) (by omega)]
  obtain ⟨vs, ws₁, rfl, hto, hvs, hws₁⟩ :=
    split_at hparse hclear hclearStart hbase hlot (by omega) hws
  obtain ⟨rs, ws₂, rfl, hto', hrs, hws₂⟩ :=
    split_at hparse hclearStart hclearStop (hbase.trans hlot) (by omega) htstop hws₁
  obtain rfl : rs = [] :=
    List.append_cancel_right (hrs.atomsOf_eq.symm.trans hwithin.cuts.atomsOf_eq)
  obtain ⟨m₁, hm₁, -⟩ := Import.exists_readTo hparse t.start
  obtain ⟨its, hits⟩ := hmode.read hm₁ hto
  have hm₂ : ReadTo src t.stop m₁ := by
    rw [ReadTo, hto', List.append_nil]
    exact hm₁
  obtain ⟨n, ws', hn, hout, hgrows⟩ := ih p t m₁ ws₂ tail hwithin hm₂ hws₂ htail
  -- the comment goes on with the new text and what is made of the rest
  obtain ⟨hdrop, hlt, hclosed⟩ := hwithin.block
  have hslice : src.slice t.start p = 0x2F :: 0x2A :: src.slice (t.start + 2) p := by
    rw [Bytes.slice, List.drop_take, hdrop, show p - t.start = p - (t.start + 2) + 2 by omega,
      List.take_succ_cons, List.take_succ_cons, Bytes.slice, List.drop_take]
  obtain ⟨hclose, hrest⟩ := close_buried hburied hclosed hlt.le (by omega) hn
  have hcomment : Cuts [] (src.slice t.start p ++ (x ++ tail)) ws' := by
    rw [hslice, List.cons_append, List.cons_append]
    exact cuts_block (by rw [List.append_nil]; exact hclose) (Token.commentClose?_le hclose)
      (hrest ▸ hout)
  have hsplit : src.slice lo p = src.slice lo t.start ++ src.slice t.start p :=
    Bytes.slice_append hlot htp.le (by omega)
  obtain ⟨hseam, hsome⟩ := seam_block (r := src.drop (t.start + 2)) (by rw [hclosed]; simp)
    (src.slice (t.start + 2) p ++ (x ++ tail))
  rw [hsplit, List.append_assoc]
  refine ⟨⟨vs ++ ws', ?_, ?_⟩, ?_⟩
  · rw [hdrop] at hvs
    have hfront := hvs.seam hseam fun _ hnone => absurd hnone hsome
    rw [← List.append_nil (_ :: _)] at hfront
    rw [hslice] at hcomment ⊢
    exact hfront.append hcomment
  · rw [List.countP_cons_of_neg (by simp [hgroup])]
    exact .keep hits hgrows
  · rw [Bytes.drop_eq_slice_append hlot (by omega : t.start ≤ src.length), hdrop]
    refine Token.commentClose?_append_eq_none (fun hnone => absurd hnone hsome) fun _ => rfl

/-- Behind the last edit inside of a comment. -/
theorem WeavesWithin.of_jump (h : Weaves src es) {lo : Nat} {t : Token} {m : Mode}
    {ws : List Atom} {out : Bytes} (hwithin : Within src t lo) (hmode : ReadTo src t.stop m)
    (hws : Cuts [] (src.drop t.stop) ws)
    (hes : ∀ e ∈ es.head?, (t.stop : Int) ≤ e.start ∧ e.start ≤ src.length)
    (hweave : weave src lo es = .ok out) :
    ∃ n ws', commentClose? out = some n ∧ Cuts [] (out.drop n) ws' ∧
      Grows (es.countP isGroup) m ws ws' := by
  have hstop := hwithin.stop
  have hlen := hwithin.stop_le
  obtain ⟨out', hout', rfl⟩ := weave_jump hstop.le hlen hes hweave
  have hbase : Token.base src ≤ t.start := by
    have hmem := hwithin.mem
    rw [Token.scan_eq_scanFrom] at hmem
    exact Token.le_start_of_mem hmem
  have hstart := hwithin.start
  obtain ⟨⟨ws', hcuts, hgrows⟩, -⟩ := h t.stop m ws out' (by omega) hlen
    (clear_comment hparse hwithin.mem hwithin.comment).2 hmode hws hout'
  have hlength : (src.slice lo t.stop).length = t.stop - lo := by
    rw [Bytes.length_slice]
    omega
  have hclose := hwithin.close
  rw [Bytes.drop_eq_slice_append hstop.le hlen, ← hlength] at hclose
  refine ⟨_, ws', Token.commentClose?_append out' hclose, ?_, hgrows⟩
  rw [List.drop_left]
  exact hcuts

omit hparse in
/-- Edits behind one inside of the comment. -/
theorem WeavesWithin.cons_buried (hburied : Buried src p (Bytes.ofString e.text))
    (hgroup : e.isGroup = false) (hstart : e.start = p) (hstop : e.stop = p)
    (ih : WeavesWithin src es) {lo : Nat} {t : Token} {m : Mode} {ws : List Atom} {out : Bytes}
    (hwithin : Within src t lo) (hpt : p < t.stop) (hmode : ReadTo src t.stop m)
    (hws : Cuts [] (src.drop t.stop) ws) (h : weave src lo (e :: es) = .ok out) :
    ∃ n ws', commentClose? out = some n ∧ Cuts [] (out.drop n) ws' ∧
      Grows ((e :: es).countP isGroup) m ws ws' := by
  obtain ⟨hle, tail, htail, rfl⟩ := weave_cons_eq_ok h
  rw [hstart] at hle ⊢
  rw [hstop] at htail
  have hlo := hwithin.start
  have htstop := hwithin.stop_le
  generalize Bytes.ofString e.text = x at hburied ⊢
  rw [Bytes.between_natCast (by omega) (by omega)]
  have hwithin' : Within src t p := ⟨hwithin.mem, hwithin.comment, by omega, hpt, hburied.line⟩
  obtain ⟨n, ws', hn, hout, hgrows⟩ := ih p t m ws tail hwithin' hmode hws htail
  obtain ⟨hclose, hrest⟩ := close_buried hburied hwithin.close (by omega) (by omega) hn
  refine ⟨n + x.length + (p - lo), ws', hclose, hrest ▸ hout, ?_⟩
  rw [List.countP_cons_of_neg (by simp [hgroup])]
  exact hgrows

/-- Applying edits in order lets the atoms grow. -/
theorem weaves {es : List Edit} (hfine : ∀ e ∈ es, Fine src e)
    (hmeets : es.Pairwise Meets) : Weaves src es ∧ WeavesWithin src es := by
  have hspans : ∀ {es : List Edit}, (∀ e ∈ es, Fine src e) →
      ∀ b ∈ es, Bytes.ofString b.text ≠ [] ∧ b.start ≤ src.length := by
    intro es hfine b hb
    obtain ⟨hne, -, p, q, hstart, -, -, ⟨htame, -⟩ | ⟨-, -, hburied⟩⟩ := hfine b hb
    · have := htame.le.trans htame.stop_le
      exact ⟨hne, by omega⟩
    · obtain ⟨t, ht, -, -, hpt⟩ := hburied.comment
      have := ((Token.scan_stream src).laid_of_mem ht).stop_le
      exact ⟨hne, by omega⟩
  induction es with
  | nil =>
    have hweaves : Weaves src [] := by
      rintro lo m ws out - hlo - - hws hout
      cases hout
      rw [Bytes.suffix_natCast hlo]
      exact ⟨⟨ws, hws, .same m ws⟩, id⟩
    refine ⟨hweaves, fun lo t m ws out hwithin hmode hws hout => ?_⟩
    exact WeavesWithin.of_jump hparse hweaves hwithin hmode hws (by simp) hout
  | cons e es ih =>
    obtain ⟨he, hes⟩ := List.forall_mem_cons.mp hfine
    obtain ⟨hmeet, hmeets⟩ := List.pairwise_cons.mp hmeets
    obtain ⟨hweaves, hwithins⟩ := ih hes hmeets
    obtain ⟨hne, -, p, q, hstart, hstop, -, hcases⟩ := he
    have hown : Weaves src (e :: es) := by
      intro lo m ws out hbase hlo hclear hmode hws hout
      rcases hcases with ⟨htame, hkind⟩ | ⟨hgroup, rfl, hburied⟩
      · refine Weaves.cons_tame hparse htame hkind hne hstart hstop (fun tail htail => ?_) hweaves
          hbase hclear hmode hws hout
        exact stops_of_meets htame.stops hstop htame.stop_le hmeet (hspans hes) htail
      · exact Weaves.cons_buried hparse hburied hgroup hstart hstop hwithins hbase hclear hmode hws
          hout
    refine ⟨hown, fun lo t m ws out hwithin hmode hws hout => ?_⟩
    obtain ⟨hne', hlen⟩ := hspans hfine e List.mem_cons_self
    by_cases hp : p < t.stop
    · rcases hcases with ⟨htame, -⟩ | ⟨hgroup, rfl, hburied⟩
      · -- an edit between two tokens does not stand inside the comment
        have hle := (weave_cons_eq_ok hout).1
        have hlo := hwithin.start
        rcases htame.start t hwithin.mem (by rw [hwithin.comment]; simp) with h | h
        · omega
        · omega
      · exact WeavesWithin.cons_buried hburied hgroup hstart hstop hwithins hwithin hp hmode hws
          hout
    · refine WeavesWithin.of_jump hparse hown hwithin hmode hws (fun b hb => ?_) hout
      obtain rfl := Option.some.inj hb
      exact ⟨by omega, hlen⟩

end Weaving

end Edit

end CtxThread
