import CtxThread.Proofs.Import.Leaders

/-!
# The import of the context package

The import group stands on lines of its own, either in front of all else or at the end of the line
of the package clause. There it is cut into the import of the context package and nothing else
changes, unless a comment or a literal goes over the end of that line.

## Main statements

- `Edit.cuts_group`: what the group is cut into
- `Edit.fine_importEdits`: what its edits do to the imports
- `Edit.countP_importEdits`: at most one group is inserted
-/

namespace CtxThread

open Code (Tree Token Kind)
open Code.Token (Cuts Seam EndsName)
open Import (Plain addedAtoms)

namespace Edit

variable {src : Bytes} {root : Tree} {p : Nat} {x : Bytes}

/-- The import group is cut into an import of the context package wherever it stands. -/
theorem cuts_group (b : Bytes) : Cuts b (Bytes.ofString ContextImport.group) addedAtoms := by
  have hinit : Token.cutsInto? (Bytes.ofString ContextImport.group).dropLast 0x29 =
      some addedAtoms.dropLast := by
    decide +kernel
  have hsplit : Bytes.ofString ContextImport.group =
      (Bytes.ofString ContextImport.group).dropLast ++ [0x29] := by
    decide +kernel
  have hnext : ∀ t, Token.next (0x29 :: t) = ⟨.sign .rparen, 1, []⟩ := by
    intro t
    rw [Token.next_of_isFrank (by decide)]
    rfl
  have hclose : Cuts b [0x29] [(.sign .rparen, Bytes.ofString ")")] := by
    refine Cuts.cons (x := [0x29]) (a := []) (s := ⟨.sign .rparen, 1, []⟩) (fun d hd => ?_)
      (hnext _) rfl (by simp) .done
    rw [← Option.some.inj hd]
    rfl
  rw [hsplit]
  exact (Token.cuts_of_cutsInto? hinit b).append hclose

theorem cuts_lineFeeds {n : Nat} (b : Bytes) : Cuts b (List.replicate n Bytes.lineFeed) [] := by
  refine Token.cuts_blanks (fun c hc => ?_) b
  rw [List.eq_of_mem_replicate hc]
  rfl

/-- A byte that the token in front of it does not go on with. -/
def IsEdge (c : UInt8) : Prop :=
  Code.isRunning c = false ∧ c < 0x80 ∧ Code.Number.isBase c = false ∧ c ≠ 0x2A

instance (c : UInt8) : Decidable (IsEdge c) := inferInstanceAs (Decidable (_ ∧ _))

/-- A line end may come in front of what no token goes on with. -/
theorem seam_lineFeed {b : Bytes} (hb : ∀ c ∈ b.head?, IsEdge c) (y : Bytes) :
    Seam b (Bytes.lineFeed :: y) where
  stretch_eq := by
    have hrun : Code.stretch (Bytes.lineFeed :: y) = [] := Code.stretch_cons_of_neg rfl y
    rw [hrun]
    cases b with
    | nil => rfl
    | cons c b => exact Code.stretch_cons_of_neg (hb c rfl).1 b
  head := .inr rfl
  plain c hc := (hb c hc).2

/-- What is inserted in front of a line end or of the end of the text starts with a line end. -/
theorem Tame.of_lineFeed (hget : ∀ c ∈ src[p]?, c = Bytes.lineFeed) (hp : p ≤ src.length)
    (hclear : Token.Clear src p) (hstarless : 0x2A ∉ x) (hhead : x.head? = some Bytes.lineFeed)
    (hstops : ∀ c ∈ x.getLast?, EndsName c) : Tame src p p x where
  le := le_rfl
  stop_le := hp
  start := hclear
  stop := hclear
  nul := by simp [Bytes.slice_self]
  starless := hstarless
  slash := by rw [hhead]; decide
  joins := .inr <| .inr fun b => by
    obtain ⟨y, rfl⟩ := List.head?_eq_some_iff.mp hhead
    refine seam_lineFeed (fun c hc => ?_) (y ++ b)
    rw [List.head?_drop] at hc
    rw [hget c hc]
    decide
  stops := .inl hstops

/-- An import group that is inserted behind line ends. -/
theorem fine_group_behind (hget : ∀ c ∈ src[p]?, c = Bytes.lineFeed) (hp : p ≤ src.length)
    (hbase : Token.base src ≤ p) (hclear : Token.Clear src p) :
    Fine src (.insertion p ("\n\n" ++ ContextImport.group)) := by
  have htext : Bytes.ofString ("\n\n" ++ ContextImport.group) ≠ [] ∧
      (0x2A : UInt8) ∉ Bytes.ofString ("\n\n" ++ ContextImport.group) ∧
      (Bytes.ofString ("\n\n" ++ ContextImport.group)).head? = some Bytes.lineFeed ∧
      ∀ c ∈ (Bytes.ofString ("\n\n" ++ ContextImport.group)).getLast?, EndsName c := by
    decide +kernel
  obtain ⟨hne, hstarless, hhead, hends⟩ := htext
  refine ⟨hne, .spaced (fun c hc => ?_) hends, p, p, rfl, rfl, hbase, .inl ⟨?_, ?_⟩⟩
  · rw [← Option.some.inj (hhead.symm.trans hc)]
    decide
  · exact .of_lineFeed hget hp hclear hstarless hhead hends
  · rw [if_pos (by simp [isGroup, insertion])]
    refine ⟨rfl, fun b => ?_⟩
    change Cuts b (Bytes.ofString ("\n\n" ++ ContextImport.group)) addedAtoms
    rw [Bytes.ofString_append]
    exact (cuts_lineFeeds (n := 2) _).append (cuts_group b)

/-- An import group in front of all else. -/
theorem fine_group_front (hbase : Token.base src = 0) :
    Fine src (.insertion 0 (ContextImport.group ++ "\n\n")) := by
  have htext : Bytes.ofString (ContextImport.group ++ "\n\n") ≠ [] ∧
      (0x2A : UInt8) ∉ Bytes.ofString (ContextImport.group ++ "\n\n") ∧
      (Bytes.ofString (ContextImport.group ++ "\n\n")).head? = some 0x69 ∧
      ∀ c ∈ (Bytes.ofString (ContextImport.group ++ "\n\n")).getLast?, EndsName c := by
    decide +kernel
  obtain ⟨hne, hstarless, hhead, hends⟩ := htext
  have hclear : Token.Clear src 0 := fun t _ _ => .inl (Nat.zero_le _)
  refine ⟨hne, .front rfl hends, 0, 0, rfl, rfl, hbase.le, .inl ⟨⟨le_rfl, Nat.zero_le _, hclear,
    hclear, ?_, hstarless, ?_, .inl rfl, .inl hends⟩, ?_⟩⟩
  · simp [Bytes.slice_self]
  · change (Bytes.ofString (ContextImport.group ++ "\n\n")).head? ≠ some 0x2F
    rw [hhead]
    decide
  · rw [if_pos (by simp [isGroup, insertion])]
    refine ⟨rfl, fun b => ?_⟩
    change Cuts b (Bytes.ofString (ContextImport.group ++ "\n\n")) addedAtoms
    rw [Bytes.ofString_append, ← List.append_nil addedAtoms]
    exact (cuts_group _).append (cuts_lineFeeds (n := 2) b)

/-- A line end at the end of the text. -/
theorem fine_lineEnd (hparse : Code.parse? src = some root) (hbase : Token.base src ≤ src.length) :
    Fine src (.insertion src.length "\n") := by
  have hends : ∀ c ∈ (Bytes.ofString "\n").getLast?, EndsName c := by decide +kernel
  have htext : Bytes.ofString "\n" ≠ [] := by decide
  have hopens : ∀ c ∈ (Bytes.ofString "\n").head?, EndsName c := by decide +kernel
  refine ⟨htext, .spaced hopens hends, src.length, src.length, rfl, rfl, hbase, .inl ⟨?_, ?_⟩⟩
  · refine .of_lineFeed (fun c hc => ?_) le_rfl (Token.clear_length src) ?_ rfl hends
    · rw [List.getElem?_eq_none le_rfl] at hc
      cases hc
    · change (0x2A : UInt8) ∉ [Bytes.lineFeed]
      decide
  · rw [isGroup_eq_false (show 0x22 ∉ Bytes.ofString "\n" by decide), if_neg (by decide)]
    refine .of_insertion (Import.readTo_length hparse) fun b _ => ⟨[], ?_, by simp [Plain]⟩
    exact cuts_lineFeeds (n := 1) b

/-- The edits that import the context package leave all other imports alone, where the end of the
line of the package clause is inside no token. -/
theorem fine_importEdits {f : SourceFile} (hparse : Code.parse? f.src = some f.root)
    (hmark : f.importCount Naming.contextPath = 0 → f.clause? = none → Token.base f.src = 0)
    (hline : ∀ p : Nat, ContextImport.AtLine f p → f.root.Clear p) {e : Edit}
    (he : e ∈ ContextImport.edits f) : Fine f.src e := by
  have hbase := Token.base_le_length f.src
  unfold ContextImport.edits at he
  split at he
  · cases he
  · next hcount =>
    cases hclause : f.clause? with
    | none =>
      rw [hclause] at he
      obtain rfl := List.mem_singleton.mp he
      exact fine_group_front (hmark (by simpa using hcount) hclause)
    | some clause =>
      rw [hclause] at he
      dsimp only at he
      split at he
      · next eol heol =>
        obtain rfl := List.mem_singleton.mp he
        obtain ⟨-, hget⟩ := Bytes.getElem?_of_lineEnd? heol
        have hclear := hline eol ⟨by simpa using hcount, clause, hclause, heol⟩
        refine fine_group_behind (fun c hc => ?_) ?_ (Token.base_le hget (by decide))
          (hclear.scanned hparse)
        · rw [hget] at hc
          exact (Option.some.inj hc).symm
        · exact (List.getElem?_eq_some_iff.mp hget).1.le
      · rcases List.mem_cons.mp he with rfl | he
        · refine fine_group_behind (fun c hc => ?_) le_rfl hbase (Token.clear_length _)
          rw [List.getElem?_eq_none le_rfl] at hc
          cases hc
        · obtain rfl := List.mem_singleton.mp he
          exact fine_lineEnd hparse hbase

/-- The texts of these edits are told apart from the first elements of lists. -/
theorem head_importEdits {f : SourceFile} {e : Edit} (he : e ∈ ContextImport.edits f) :
    (Bytes.ofString e.text).head? ≠ some 0x63 := by
  have hall : ∀ text ∈ ["\n\n" ++ ContextImport.group, ContextImport.group ++ "\n\n", "\n"],
      (Bytes.ofString text).head? ≠ some 0x63 := by
    decide +kernel
  refine hall _ ?_
  unfold ContextImport.edits at he
  split at he
  · cases he
  · split at he
    · simp [List.mem_singleton.mp he, insertion]
    · split at he
      · simp [List.mem_singleton.mp he, insertion]
      · rcases List.mem_cons.mp he with rfl | he
        · simp [insertion]
        · simp [List.mem_singleton.mp he, insertion]

/-- One import group is inserted if the context package is not imported. -/
theorem countP_importEdits (f : SourceFile) : (ContextImport.edits f).countP isGroup =
    if f.importCount Naming.contextPath = 0 then 1 else 0 := by
  have hbehind : ∀ p : Int, isGroup (.insertion p ("\n\n" ++ ContextImport.group)) = true :=
    fun p => by simp [isGroup, insertion]
  have hfront : ∀ p : Int, isGroup (.insertion p (ContextImport.group ++ "\n\n")) = true :=
    fun p => by simp [isGroup, insertion]
  have hline : ∀ p : Int, isGroup (.insertion p "\n") = false :=
    fun p => isGroup_eq_false (show 0x22 ∉ Bytes.ofString "\n" by decide)
  unfold ContextImport.edits
  by_cases hcount : f.importCount Naming.contextPath = 0
  · rw [if_neg (not_not.mpr hcount), if_pos hcount]
    split
    · simp [hfront]
    · split <;> simp [hbehind, hline]
  · rw [if_pos hcount, if_neg hcount, List.countP_nil]

end Edit

end CtxThread
