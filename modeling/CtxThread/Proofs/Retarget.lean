import CtxThread.Proofs.Edit.Plan
import CtxThread.Proofs.Text.Utf8
import CtxThread.Proofs.Types.Resolving
import CtxThread.Retarget

/-!
# The replacement of a method name

A call is only directed at another method when its method name is in one of the two tables. The
name is then spelled in plain letters, and the new name starts with it.

## Main statements

- `Retarget.hit_spec`: what a hit is
- `Retarget.rename_owned`, `Retarget.rename_adds`: the replacement belongs to its call and gains
  something
-/

namespace CtxThread

open Code (Tree)

namespace Retarget

open Resolving (bind_eq_some pure_eq_some)

/-- The names of methods and of their variants. -/
def methods : List (String × String) := sqlMethods ++ sqlxMethods

/-- A call that is to be directed at another method. -/
structure IsHit (call field : Tree) (variant : String) : Prop where
  selects : ∃ fn, call.child? .function = some fn ∧ fn.kind = .selectorExpression ∧
    fn.child? .field = some field
  mem : (field.text, variant) ∈ methods

theorem methodCall?_spec {call operand : Ref} {field : Tree}
    (h : methodCall? call = some (operand, field)) :
    ∃ fn, call.node.child? .function = some fn ∧ fn.kind = .selectorExpression ∧
      fn.child? .field = some field := by
  obtain ⟨fn, hfn, h⟩ := Option.bind_eq_some_iff.mp h
  obtain ⟨site, hsite, rfl⟩ := Option.map_eq_some_iff.mp hfn
  obtain ⟨t, ht, rfl⟩ := Option.map_eq_some_iff.mp hsite
  refine ⟨t, ht, ?_⟩
  split at h
  · next hkind =>
    split at h
    · next op fld _ hfield =>
      cases h
      exact ⟨hkind, hfield⟩
    · cases h
  · cases h

theorem mem_of_lookup {table : List (String × String)} {name variant : String}
    (h : table.lookup name = some variant) : (name, variant) ∈ table := by
  obtain ⟨before, after, rfl, _⟩ := List.lookup_eq_some_iff.mp h
  exact List.mem_append_right before List.mem_cons_self

theorem hitIn_spec {env : Env} {table : List (String × String)} {isValue : Ty → Bool} {call : Ref}
    {m m' : Memo} {field : Tree} {variant : String}
    (h : hitIn env table isValue call m = some (some (field, variant), m')) :
    (∃ fn, call.node.child? .function = some fn ∧ fn.kind = .selectorExpression ∧
      fn.child? .field = some field) ∧ (field.text, variant) ∈ table := by
  unfold hitIn at h
  cases hcall : methodCall? call with
  | none =>
    rw [hcall] at h
    cases pure_eq_some.mp h
  | some found =>
    obtain ⟨operand, fld⟩ := found
    rw [hcall] at h
    dsimp only at h
    cases hlookup : table.lookup fld.text with
    | none =>
      rw [hlookup] at h
      cases pure_eq_some.mp h
    | some v =>
      rw [hlookup] at h
      obtain ⟨t, m₁, _, h⟩ := bind_eq_some.mp h
      split at h
      · cases pure_eq_some.mp h
        exact ⟨methodCall?_spec hcall, mem_of_lookup hlookup⟩
      · cases pure_eq_some.mp h

/-- What is found for a call is the name of the method it selects, with its variant. -/
theorem hit_spec {env : Env} {call : Ref} {m m' : Memo} {field : Tree} {variant : String}
    (h : hit env call m = some (some (field, variant), m')) : IsHit call.node field variant := by
  obtain ⟨found, m₁, hfound, h⟩ := bind_eq_some.mp h
  cases found with
  | some f =>
    cases pure_eq_some.mp h
    obtain ⟨hselects, hmem⟩ := hitIn_spec hfound
    exact ⟨hselects, List.mem_append_left _ hmem⟩
  | none =>
    obtain ⟨hselects, hmem⟩ := hitIn_spec h
    exact ⟨hselects, List.mem_append_right _ hmem⟩

/-! ## The replacement -/

/-- The bytes of a method name. -/
def nameBytes (name : String) : Bytes := name.toList.map fun c => UInt8.ofNat c.toNat

/-- The names in the tables are plain, without guards, and each is kept in its variant, which is
longer. -/
theorem methods_spec : ∀ e ∈ methods, e.1.toList.all Utf8.isPlain = true ∧
    (∀ b ∈ nameBytes e.1, Bytes.isGuard b = false) ∧ e.1 ≠ "" ∧
    (nameBytes e.1).substance.Sublist (Bytes.ofString e.2).substance ∧
    (nameBytes e.1).substance.length < (Bytes.ofString e.2).substance.length := by
  decide +kernel

section Rename

variable {src : Bytes} {call field : Tree} {variant : String} (hlaid : call.Laid src)
  (hhit : IsHit call field variant)

include hlaid hhit

theorem field_laid : field.Laid src ∧ field.kind = .fieldIdentifier := by
  obtain ⟨⟨fn, hfn, _, hfield⟩, _⟩ := hhit
  have hfnLaid := hlaid.of_mem_children (Tree.mem_of_child? hfn).1
  have hfieldLaid := hfnLaid.of_mem_children (Tree.mem_of_child? hfield).1
  have hrole := hfieldLaid.shaped.role _ (Tree.mem_of_child? hfield).2
  exact ⟨hfieldLaid, by simpa [Code.Role.admits] using hrole⟩

/-- The bytes of a method name that is in a table are the plain letters of the name. -/
theorem slice_field : src.slice field.start field.stop = nameBytes field.text := by
  obtain ⟨hfield, _⟩ := field_laid hlaid hhit
  obtain ⟨hplain, _, hne, _⟩ := methods_spec _ hhit.mem
  dsimp only at hplain hne
  rcases hfield.bytes with hnil | hbytes
  · rw [Tree.text, hnil] at hne
    exact absurd rfl hne
  · rw [← hbytes, nameBytes, Tree.text]
    rw [Tree.text, Utf8.decode, String.toList_ofList] at hplain
    rw [Utf8.decode, String.toList_ofList]
    exact Utf8.bytes_of_decodeChars hplain

theorem between_field :
    src.between field.start field.stop = nameBytes field.text := by
  obtain ⟨hfield, _⟩ := field_laid hlaid hhit
  rw [Bytes.between_natCast hfield.start_le_stop hfield.stop_le, slice_field hlaid hhit]

/-- The new name gains something. -/
theorem rename_adds : Edit.Adds src ⟨field.start, field.stop, variant⟩ := by
  obtain ⟨_, _, _, _, hlt⟩ := methods_spec _ hhit.mem
  rw [Edit.Adds, between_field hlaid hhit]
  exact hlt

/-- The replacement of a method name belongs to its call. -/
theorem rename_owned (hcall : call.kind = .callExpression) :
    Edit.Owned src call ⟨field.start, field.stop, variant⟩ := by
  obtain ⟨hfield, hkind⟩ := field_laid hlaid hhit
  obtain ⟨_, hguard, _, hkeeps, _⟩ := methods_spec _ hhit.mem
  obtain ⟨fn, hfn, hselector, hfieldOf⟩ := hhit.selects
  have hfnMem := (Tree.mem_of_child? hfn).1
  have hfnLaid := hlaid.of_mem_children hfnMem
  have hfieldMem := (Tree.mem_of_child? hfieldOf).1
  obtain ⟨h1, _, h2⟩ := hlaid.row.bounds_of_mem hfnMem
  obtain ⟨h3, _, h4⟩ := hfnLaid.row.bounds_of_mem hfieldMem
  refine ⟨by simp [Edit.isOwner, hcall], ?_, ?_, by dsimp only; omega, by dsimp only; omega, ?_⟩
  · refine ⟨field.start, field.stop, rfl, rfl, hfield.start_le_stop, hfield.stop_le, ?_⟩
    rw [slice_field hlaid hhit]
    exact hguard
  · rw [Edit.Keeps, between_field hlaid hhit]
    exact hkeeps
  · -- a call or a function below is in another child of the call or of the selector
    intro c hc n hn howner
    have hcLaid := hlaid.of_mem_children hc
    obtain ⟨hcn1, hcn2⟩ := hcLaid.span_le_of_mem_walk hn
    dsimp only
    by_cases hcfn : c = fn
    · subst hcfn
      rcases Tree.mem_walk_iff.mp hn with rfl | ⟨d, hd, hnd⟩
      · rw [hselector] at howner
        exact absurd howner (by decide)
      · have hdLaid := hcLaid.of_mem_children hd
        obtain ⟨hdn1, hdn2⟩ := hdLaid.span_le_of_mem_walk hnd
        by_cases hdf : d = field
        · subst hdf
          rcases Tree.mem_walk_iff.mp hnd with rfl | ⟨e, he, _⟩
          · rw [hkind] at howner
            exact absurd howner (by decide)
          · rw [hfield.shaped.leaf (.inr hkind)] at he
            cases he
        · have := hcLaid.row.apart_of_ne hd hfieldMem hdf
          omega
    · have := hlaid.row.apart_of_ne hc hfnMem hcfn
      omega

end Rename

end Retarget

end CtxThread
