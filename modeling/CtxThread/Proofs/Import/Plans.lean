import CtxThread.Proofs.Import.Renames
import CtxThread.Proofs.Import.Seeds
import CtxThread.Proofs.Edit.Operations

/-!
# Planned edits and imports

All edits that are planned for a file leave its imports alone, the import of the context package
aside, and no two lists gain a first element at one place.

## Main definitions

- `Code.Tree.Gains`: a node whose list gains a first element

## Main statements

- `Edit.fine_nodeEdits`, `Edit.fine_edits`: what planned edits do to the imports
- `Edit.unshared_edits`: first elements are gained at different places
-/

namespace CtxThread

open Code (Tree Token Kind Row)
open Code.Token (Cuts Seam EndsName)
open Import (Plain)

namespace Code.Tree

/-- An item below a node in brackets starts behind the opening one. -/
theorem Laid.start_lt_of_bracketed {src : Bytes} {x n : Tree} (hx : x.Laid src)
    {opening closing : Sign} {byte : UInt8} (hbrackets : x.Bracketed opening closing)
    (hbyte : opening.bracket? = some byte) (hn : n ∈ x.walk) (hne : n ≠ x)
    (hitem : n.isItem = true) : x.start < n.start := by
  obtain ⟨a, mid, b, hchildren, ha, -, hstart, -⟩ := hbrackets
  have hstop := ((hx.of_mem_children (hchildren ▸ List.mem_cons_self)).bracket ha hbyte).1
  have hrow := hx.row
  rw [hchildren] at hrow
  obtain ⟨c, hc, hn⟩ := (mem_walk_iff.mp hn).resolve_left hne
  have hcLaid := hx.of_mem_children hc
  have hbelow := (hcLaid.span_le_of_mem_walk hn).1
  rw [hchildren] at hc
  rcases List.mem_cons.mp hc with rfl | hc
  · rw [hcLaid.eq_of_isItem_eq_false (isItem_of_kind_sign ha) hn, isItem_of_kind_sign ha] at hitem
    cases hitem
  · have := hrow.2.2.bounds_of_mem hc
    omega

/-- A list of parameters or arguments is not empty. -/
theorem Laid.start_lt_stop_of_parens {src : Bytes} {x : Tree} (hx : x.Laid src)
    (hk : x.kind = .parameterList ∨ x.kind = .argumentList) : x.start < x.stop := by
  obtain ⟨a, mid, b, hchildren, ha, -, hstart, -⟩ := hx.shaped.parens hk
  have hmem : a ∈ x.children := hchildren ▸ List.mem_cons_self
  have hstop := ((hx.of_mem_children hmem).bracket ha rfl).1
  have := hx.row.bounds_of_mem hmem
  omega

/-- Lists in parentheses of two nodes, one of which comes after the other, start at different
places. -/
theorem Laid.start_ne_of_parens {src : Bytes} {a b list list' : Tree} (ha : a.Laid src)
    (hb : b.Laid src) (horder : a.stop ≤ b.start ∨ ∃ c ∈ a.children, b ∈ c.walk)
    (hlist : list ∈ a.children) (hlist' : list' ∈ b.children)
    (hk : list.kind = .parameterList ∨ list.kind = .argumentList)
    (hk' : list'.kind = .parameterList ∨ list'.kind = .argumentList)
    (hbk : Edit.isOwner b.kind = true) : list.start ≠ list'.start := by
  have hlaid := ha.of_mem_children hlist
  have hspan := hlaid.start_lt_stop_of_parens hk
  have hspan' := (hb.of_mem_children hlist').start_lt_stop_of_parens hk'
  have hbounds := ha.row.bounds_of_mem hlist
  have hbounds' := hb.row.bounds_of_mem hlist'
  rcases horder with hapart | ⟨c, hc, hbc⟩
  · omega
  · have hbounds'' := (ha.of_mem_children hc).span_le_of_mem_walk hbc
    by_cases heq : c = list
    · -- the second node is an element of the first list
      subst heq
      have hne : b ≠ c := by
        rintro rfl
        rcases hk with hk | hk <;> rw [hk] at hbk <;> cases hbk
      have := hlaid.start_lt_of_bracketed (hlaid.shaped.parens hk) rfl hbc hne
        (Seed.isItem_of_isOwner hbk).1
      omega
    · have := ha.row.apart_of_ne hc hlist heq
      omega

/-- The edit gives a first element to one of the lists of a call or a function. -/
def Gains (t : Tree) (e : Edit) : Prop :=
  Edit.isOwner t.kind = true ∧ ∃ list ∈ t.children,
    (list.kind = .parameterList ∨ list.kind = .argumentList) ∧ e.start = list.start + 1

/-- No two nodes gain first elements at one place. -/
theorem Laid.pairwise_gains {src : Bytes} {root : Tree} (h : root.Laid src) :
    root.walk.Pairwise fun a b => ∀ e e', a.Gains e → b.Gains e' → e.start ≠ e'.start := by
  refine (List.Pairwise.and_mem.mp h.pairwise_walk).imp ?_
  rintro a b ⟨ha, hb, horder⟩ e e' ⟨-, list, hlist, hk, hstart⟩ ⟨hbk, list', hlist', hk', hstart'⟩
  have := (h.of_mem_walk ha).start_ne_of_parens (h.of_mem_walk hb) horder hlist hlist' hk hk' hbk
  omega

/-- No two different nodes gain first elements at one place. -/
theorem Laid.start_ne_of_gains {src : Bytes} {root a b : Tree} (h : root.Laid src)
    (ha : a ∈ root.walk) (hb : b ∈ root.walk) (hne : a ≠ b) {e e' : Edit} (he : a.Gains e)
    (he' : b.Gains e') : e.start ≠ e'.start := by
  have : Std.Symm fun a b : Tree => ∀ e e', a.Gains e → b.Gains e' → e.start ≠ e'.start :=
    ⟨fun _ _ hab e e' he he' => (hab e' e he' he).symm⟩
  exact h.pairwise_gains.forall ha hb hne e e' he he'

end Code.Tree

namespace Edit

open FileUpdate

variable {s : Settings} {f : SourceFile} (hparse : Code.parse? f.src = some f.root)

include hparse

/-- The edits that a node gives rise to leave the imports alone. -/
theorem fine_ownEdits {z : Tree × Option (Tree × String)} (hz : z.1 ∈ f.root.walk)
    (hhit : ∀ hit, z.2 = some hit →
      z.1.kind = .callExpression ∧ Retarget.IsHit z.1 hit.1 hit.2) {e : Edit}
    (he : e ∈ ownEdits s f.src z) : Fine f.src e ∧ e.isGroup = false ∧
      ((Bytes.ofString e.text).head? = some 0x63 →
        Handler.isAugmented s z.1 = true ∧ z.1.Gains e) := by
  have hlaid := (Code.parse?_laid hparse).of_mem_walk hz
  rw [ownEdits, List.mem_append, List.mem_append] at he
  rcases he with he | he | he
  · obtain ⟨hit, hmem, rfl⟩ := List.mem_map.mp he
    obtain ⟨hk, hit'⟩ := hhit hit (Option.mem_toList.mp hmem)
    obtain ⟨hfine, hgroup, hhead⟩ := fine_rename hparse hz hk hit'
    exact ⟨hfine, hgroup, fun h => absurd h hhead⟩
  · unfold Handler.parameterEdits at he
    split at he
    · next haug =>
      obtain ⟨list, hlist, rfl⟩ := List.mem_map.mp he
      have hlist := Option.mem_toList.mp hlist
      have hk : list.kind = .parameterList := by
        simpa [Code.Role.admits] using (child_laid hlaid hlist).2
      have hmem := (Tree.mem_of_child? hlist).1
      have hfine := fine_leadingItem hparse (Tree.mem_walk_of_mem_children hz hmem) (.inl hk)
      rw [Tree.elements, if_pos hk, Tree.leader, if_pos hk] at hfine
      refine ⟨hfine.1, hfine.2, fun _ => ⟨haug, ?_, list, hmem, .inl hk, (leadingItem_start ..).1⟩⟩
      simp [isOwner, Kind.isFunc, (Bool.and_eq_true_iff.mp haug).1]
    · cases he
  · obtain ⟨statement, hstatement, he⟩ := List.mem_flatMap.mp he
    have hstatement := Option.mem_toList.mp hstatement
    unfold Seed.missing at he
    cases hbody : z.1.child? .body with
    | none => rw [hbody] at he; cases he
    | some body =>
      rw [hbody] at he
      dsimp only at he
      split at he
      · cases he
      · have hmem : statement ∈ [Naming.httpSeed, Naming.echoSeed] := by
          unfold Handler.seed? at hstatement
          split at hstatement
          · simp [← Option.some.inj hstatement]
          · split at hstatement
            · simp [← Option.some.inj hstatement]
            · cases hstatement
        obtain ⟨hfine, hinert⟩ := fine_seed hparse
          (Tree.mem_walk_of_mem_children hz (Tree.mem_of_child? hbody).1)
          (Seed.body_laid hlaid hbody).2 hmem he
        exact ⟨hfine, isGroup_eq_false hinert.quoteless,
          fun h => absurd (hinert.opens _ h) (by decide)⟩

variable {hits : List (Option (Tree × String))} (hhits : Hits (f.root.walk.zip hits))

include hhits

/-- All edits planned for a file but for those of the import leave the imports alone. -/
theorem fine_nodeEdits {e : Edit} (he : e ∈ (f.root.walk.zip hits).flatMap (ownEdits s f.src) ++
    (planned s f hits).finish.plan.calls.map (·.2)) : Fine f.src e ∧ e.isGroup = false := by
  rcases List.mem_append.mp he with he | he
  · obtain ⟨z, hz, he⟩ := List.mem_flatMap.mp he
    obtain ⟨hfine, hgroup, -⟩ := fine_ownEdits hparse (List.of_mem_zip hz).1 (hhits.call z hz) he
    exact ⟨hfine, hgroup⟩
  · obtain ⟨entry, hentry, rfl⟩ := List.mem_map.mp he
    obtain ⟨call, hcall, list, hlist, rfl⟩ :=
      (planned_leads s (Code.distinct_calls hparse) hhits).placed entry hentry
    have hmem := (List.mem_filter.mp hcall).1
    have hlaid := (Code.parse?_laid hparse).of_mem_walk hmem
    have hk : list.kind = .argumentList := by
      simpa [Code.Role.admits] using (child_laid hlaid hlist).2
    have := fine_leadingItem hparse
      (Tree.mem_walk_of_mem_children hmem (Tree.mem_of_child? hlist).1) (.inr hk)
    rwa [Tree.elements, if_neg (by simp [hk]), Tree.leader, if_neg (by simp [hk])] at this

/-- All edits planned for a file leave the imports alone, or are to import the context package. -/
theorem fine_edits
    (hmark : f.importCount Naming.contextPath = 0 → f.clause? = none → Token.base f.src = 0)
    (hline : ∀ p : Nat, ContextImport.AtLine f p → f.root.Clear p) {e : Edit}
    (he : e ∈ (planned s f hits).finish.plan.edits) : Fine f.src e := by
  rw [Plan.edits, planned_plain s hhits] at he
  simp only [List.mem_append] at he
  rcases he with (he | he) | he
  · exact (fine_nodeEdits hparse hhits (List.mem_append_left _ he)).1
  · split at he
    · exact fine_importEdits hparse hmark hline he
    · cases he
  · exact (fine_nodeEdits hparse hhits (List.mem_append_right _ he)).1

omit hhits in
/-- A node gives rise to at most one first element. -/
theorem unshared_ownEdits {z : Tree × Option (Tree × String)} (hz : z.1 ∈ f.root.walk)
    (hhit : ∀ hit, z.2 = some hit →
      z.1.kind = .callExpression ∧ Retarget.IsHit z.1 hit.1 hit.2) :
    (ownEdits s f.src z).Pairwise Unshared := by
  cases hhitz : z.2 with
  | some hit =>
    rw [(step_call (s := s) hhitz (hhit hit hhitz).1 f.src).1]
    exact List.pairwise_singleton _ _
  | none =>
    cases haug : Handler.isAugmented s z.1 with
    | false =>
      -- none of the edits of a node that is not augmented is a first element
      refine List.pairwise_of_forall_mem_list fun a ha b hb hhead => ?_
      have := ((fine_ownEdits hparse hz hhit ha).2.2 hhead).1
      rw [haug] at this
      cases this
    | true =>
      have hseed : Handler.seed? s z.1 = none := by
        cases hseed : Handler.seed? s z.1 with
        | none => rfl
        | some statement =>
          rw [isAugmented_of_seed? hseed] at haug
          cases haug
      rw [ownEdits, hhitz, hseed, Handler.parameterEdits, if_pos haug]
      cases z.1.child? .parameters with
      | none => exact .nil
      | some list => exact List.pairwise_singleton _ _

/-- No two lists gain a first element at one place. -/
theorem unshared_edits (hlen : hits.length = f.root.walk.length) :
    (planned s f hits).finish.plan.edits.Pairwise Unshared := by
  have hroot := Code.parse?_laid hparse
  have hleads := planned_leads s (Code.distinct_calls hparse) hhits
  have hmem : ∀ {z}, z ∈ f.root.walk.zip hits → z.1 ∈ f.root.walk :=
    fun hz => (List.of_mem_zip hz).1
  have hown : ∀ {z e}, z ∈ f.root.walk.zip hits → e ∈ ownEdits s f.src z →
      (Bytes.ofString e.text).head? = some 0x63 → Handler.isAugmented s z.1 = true ∧ z.1.Gains e :=
    fun {z} _ hz he => (fine_ownEdits hparse (hmem hz) (hhits.call z hz) he).2.2
  have hcall : ∀ entry ∈ (planned s f hits).finish.plan.calls,
      ∃ call ∈ f.root.allOfKind .callExpression, entry.1 = call.key ∧ call.Gains entry.2 := by
    intro entry hentry
    obtain ⟨call, hcall, list, hlist, rfl⟩ := hleads.placed entry hentry
    have hkind : call.kind = .callExpression := by simpa using (List.mem_filter.mp hcall).2
    have hk := (child_laid (hroot.of_mem_walk (List.mem_filter.mp hcall).1) hlist).2
    refine ⟨call, hcall, rfl, by simp [isOwner, hkind], list, (Tree.mem_of_child? hlist).1,
      .inr (by simpa [Code.Role.admits] using hk), (leadingItem_start ..).1⟩
  have hpair : (f.root.walk.zip hits).Pairwise fun z z' =>
      ∀ e e', z.1.Gains e → z'.1.Gains e' → e.start ≠ e'.start := by
    have := hroot.pairwise_gains
    rw [← List.map_fst_zip hlen.ge] at this
    exact List.pairwise_map.mp this
  have himport : ∀ e ∈ (if (planned s f hits).finish.changed then ContextImport.edits f else []),
      (Bytes.ofString e.text).head? ≠ some 0x63 := by
    intro e he
    split at he
    · exact head_importEdits he
    · cases he
  rw [Plan.edits, planned_plain s hhits]
  refine List.pairwise_append.mpr ⟨List.pairwise_append.mpr ⟨?_, ?_, ?_⟩, ?_, ?_⟩
  · refine List.pairwise_flatMap.mpr ⟨fun z hz => ?_, ?_⟩
    · exact unshared_ownEdits hparse (hmem hz) (hhits.call z hz)
    · refine (List.Pairwise.and_mem.mp hpair).imp ?_
      rintro z z' ⟨hz, hz', hne⟩ e he e' he' hhead hhead'
      exact hne e e' (hown hz he hhead).2 (hown hz' he' hhead').2
  · exact List.pairwise_of_forall_mem_list fun a ha _ _ hhead => absurd hhead (himport a ha)
  · exact fun _ _ b hb _ hhead => absurd hhead (himport b hb)
  · -- different calls have different keys
    refine List.pairwise_map.mpr ((List.Pairwise.and_mem.mp (List.pairwise_map.mp
      hleads.nodup)).imp ?_)
    rintro entry entry' ⟨hentry, hentry', hkey⟩ - -
    obtain ⟨call, hcall₁, heq, hgains⟩ := hcall entry hentry
    obtain ⟨call', hcall₂, heq', hgains'⟩ := hcall entry' hentry'
    refine hroot.start_ne_of_gains (List.mem_filter.mp hcall₁).1 (List.mem_filter.mp hcall₂).1 ?_
      hgains hgains'
    rintro rfl
    exact hkey (heq.trans heq'.symm)
  · intro e he e' he' hhead hhead'
    rcases List.mem_append.mp he with he | he
    · obtain ⟨z, hz, he⟩ := List.mem_flatMap.mp he
      obtain ⟨entry, hentry, rfl⟩ := List.mem_map.mp he'
      obtain ⟨call, hcall₁, -, hgains⟩ := hcall entry hentry
      obtain ⟨haug, hgains'⟩ := hown hz he hhead
      refine hroot.start_ne_of_gains (hmem hz) (List.mem_filter.mp hcall₁).1 ?_ hgains' hgains
      -- a declaration is no call
      rintro heq
      have hkind : call.kind = .callExpression := by simpa using (List.mem_filter.mp hcall₁).2
      have hdecl := (Bool.and_eq_true_iff.mp haug).1
      rw [heq, hkind] at hdecl
      cases hdecl
    · exact absurd hhead (himport e he)

end Edit

end CtxThread
