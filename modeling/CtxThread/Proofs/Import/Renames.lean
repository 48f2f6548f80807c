import CtxThread.Proofs.Import.Leaders

/-!
# New names and imports

The name of a method is a token of its own, and so is the longer name that takes its place: what
follows the one does not go on with the other either.

## Main statements

- `Code.Token.Cuts.endsName`: what a name is cut off from
- `Edit.fine_rename`: other names leave the imports alone
-/

namespace CtxThread

open Code (Tree Token Kind)
open Code.Token (Cuts Seam EndsName)
open Import (Plain)

namespace Code.Token

theorem spanChars_ascii {p : Char → Bool} {name : Bytes}
    (hname : ∀ b ∈ name, b < 0x80 ∧ p (Char.ofNat b.toNat) = true) (tail : Bytes) :
    spanChars p 0 (name ++ tail) = name.length + spanChars p 0 tail := by
  induction name with
  | nil => simp
  | cons b name ih =>
    obtain ⟨hascii, hp⟩ := hname b List.mem_cons_self
    have hfirst : Utf8.first b (name ++ tail) = ⟨some (Char.ofNat b.toNat), 1⟩ := by
      rw [Utf8.first, if_pos hascii]
    rw [List.cons_append, spanChars, hfirst]
    simp only [hp, if_true, Nat.sub_self]
    rw [ih fun c hc => hname c (List.mem_cons_of_mem b hc), List.length_cons]
    omega

/-- What a name is cut off from does not go on with it. -/
theorem Cuts.endsName {x b : Bytes} (hx : isWord x = true) {vs : List Atom} (h : Cuts b x vs)
    (hb : b ≠ [] → (∀ c ∈ b.head?, 0x80 ≤ c) → (next b).lexeme ≠ .stray) :
    ∀ c ∈ b.head?, EndsName c := by
  cases x with
  | nil => cases hx
  | cons d name =>
    simp only [isWord, Bool.and_eq_true, decide_eq_true_eq, List.all_eq_true,
      Bool.not_eq_true'] at hx
    obtain ⟨⟨⟨⟨hfrank, hblank⟩, hstart⟩, hname⟩, -⟩ := hx
    obtain ⟨hascii, -⟩ := hname d List.mem_cons_self
    have hlen : nameLength (d :: name ++ b) = (d :: name).length + spanChars isNamePart 0 b := by
      rw [← spanChars_ascii hname]
      simp [nameLength, Utf8.first, hascii, hstart]
    have hspan : spanChars isNamePart 0 b = 0 := by
      cases h with
      | blank hc _ =>
        rw [hblank] at hc
        cases hc
      | token _ hs hle _ _ =>
        have hpos : nameLength (d :: (name ++ b)) ≠ 0 := by
          rw [← List.cons_append, hlen, List.length_cons]
          omega
        rw [List.cons_append, next_of_isFrank hfrank, if_pos hpos] at hs
        rw [← hs] at hle
        dsimp only at hle
        rw [← List.cons_append, hlen] at hle
        omega
    intro c hc
    obtain ⟨t, rfl⟩ := List.head?_eq_some_iff.mp hc
    by_cases hge : 0x80 ≤ c
    · have := spanChars_pos_of_ge hge (hb (List.cons_ne_nil _ _) fun d hd => by
        rwa [← Option.some.inj hd])
      omega
    · have hlt : c < 0x80 := UInt8.not_le.mp hge
      refine ⟨hlt, Bool.eq_false_of_not_eq_true fun hpart => ?_⟩
      rw [spanChars, Utf8.first, if_pos hlt] at hspan
      simp only [hpart, if_true] at hspan
      omega

end Code.Token

theorem Code.stretch_append_of_mem {x : Bytes} {c : UInt8} (hc : c ∈ x) (hrun : isRunning c = false)
    (t : Bytes) : stretch (x ++ t) = stretch x := by
  induction x with
  | nil => cases hc
  | cons d x ih =>
    rw [List.cons_append]
    by_cases hd : isRunning d = true
    · rw [stretch_cons_of_pos hd, stretch_cons_of_pos hd, ih]
      rcases List.mem_cons.mp hc with rfl | hc
      · rw [hrun] at hd
        cases hd
      · exact hc
    · rw [stretch_cons_of_neg (by simpa using hd), stretch_cons_of_neg (by simpa using hd)]

namespace Edit

variable {src : Bytes} {root : Tree} {p : Nat} {x : Bytes}

/-- The names of methods and their variants are plain words. The variants start with the names. -/
theorem methods_words : ∀ e ∈ Retarget.methods,
    Token.isWord (Retarget.nameBytes e.1) = true ∧ Token.isWord (Bytes.ofString e.2) = true ∧
      Bytes.ofString e.2 = Retarget.nameBytes e.1 ++ Bytes.ofString "Context" ∧
      ((Retarget.nameBytes e.1).any fun c => !Code.isRunning c) = true ∧
      ((Retarget.nameBytes e.1).head?.all fun c => c < 0x80 && !Code.Number.isBase c &&
        c ≠ 0x2A && c ≠ 0x63) = true ∧
      ((Retarget.nameBytes e.1).getLast?.all fun c => c ≠ 0x28) = true ∧
      (Bytes.ofString e.2).all (fun c => c ≠ 0x2A && c ≠ 0x22 && c ≠ 0x2F && c ≠ 0x00) = true := by
  decide +kernel

/-- A name that is told apart from what follows. -/
theorem cuts_word_of_stops {b : Bytes} (hx : Token.isWord x = true) (hstops : Stops x b) :
    ∃ us, Cuts b x us ∧ Plain us := by
  refine ⟨_, Token.cuts_word hx (hstops.resolve_left fun hall => ?_), by simp [Plain]⟩
  cases x with
  | nil => cases hx
  | cons d x =>
    simp only [Token.isWord, Bool.and_eq_true, decide_eq_true_eq, List.all_eq_true] at hx
    have hmem := List.getLast_mem (List.cons_ne_nil d x)
    have hends := hall _ (List.getLast?_eq_getLast_of_ne_nil (List.cons_ne_nil d x))
    have := (hx.1.2 _ hmem).2
    rw [hends.2] at this
    cases this

/-- What stands behind a token that is a name does not go on with it. -/
theorem endsName_of_word (hparse : Code.parse? src = some root) {n : Tree} (hn : n ∈ root.walk)
    (hinner : Token.isInner n.kind = false) (hbase : Token.base src ≤ n.start)
    (hword : Token.isWord (src.slice n.start n.stop) = true) :
    ∀ c ∈ (src.drop n.stop).head?, EndsName c := by
  have hlaid := (Code.parse?_laid hparse).of_mem_walk hn
  have hle := hlaid.start_le_stop
  obtain ⟨hstart, hstop⟩ := Code.clear_of_isInner hparse hn hinner
  have hstop := hstop.scanned hparse
  obtain ⟨vs, -, hvs⟩ :=
    Code.cuts_between hparse (hstart.scanned hparse) hstop hbase hle hlaid.stop_le
  refine hvs.endsName hword fun hne hge => ?_
  obtain ⟨ws, -, hws⟩ := Code.cuts_from hparse hstop (hbase.trans hle) hlaid.stop_le
  obtain ⟨c, t, hct⟩ := List.exists_cons_of_ne_nil hne
  have hblank : Bytes.isBlank c = false := by
    have hge := hge c (by rw [hct]; rfl)
    exact Bool.eq_false_of_not_eq_true fun hblank =>
      absurd (Token.endsName_of_isBlank hblank).1 (UInt8.not_lt.mpr hge)
  have := hws.not_stray hct hblank
  rwa [List.append_nil] at this

/-- A longer name may stand where the name it starts with does. -/
theorem Manner.of_longer {q : Nat} {text : String} {name more : Bytes} (hq : q ≤ src.length)
    (hslice : src.slice p q = name) (hne : name ≠ []) (hlast : name.getLast? ≠ some 0x28)
    (htext : Bytes.ofString text = name ++ more)
    (hstops : Stops (Bytes.ofString text) (src.drop q)) : Manner src ⟨p, q, text⟩ := by
  obtain ⟨d, name, rfl⟩ := List.exists_cons_of_ne_nil hne
  have hlen := Bytes.length_slice src p q
  rw [hslice, Nat.min_eq_left hq, List.length_cons] at hlen
  have hget : ∀ i, p + i < q → src[p + i]? = (d :: name)[i]? := by
    intro i hi
    have := Bytes.getElem?_slice src p q i
    rw [if_pos hi, hslice] at this
    exact this.symm
  refine .name p (q - 1) rfl (by dsimp only; omega) (by omega) ?_ ?_ ?_
  · have hfirst := hget 0 (by omega)
    rw [Nat.add_zero] at hfirst
    change (Bytes.ofString text).head? = _
    rw [htext, hfirst]
    rfl
  · rw [List.getLast?_eq_getElem?, List.length_cons, Nat.add_sub_cancel,
      ← hget _ (by omega)] at hlast
    rwa [show q - 1 = p + name.length by omega]
  · rwa [Nat.sub_add_cancel (by omega)]

/-- Another name for a method leaves the imports alone. -/
theorem fine_rename (hparse : Code.parse? src = some root) {call field : Tree} {variant : String}
    (hcall : call ∈ root.walk) (hk : call.kind = .callExpression)
    (hhit : Retarget.IsHit call field variant) :
    Fine src ⟨field.start, field.stop, variant⟩ ∧
      isGroup ⟨field.start, field.stop, variant⟩ = false ∧
      (Bytes.ofString variant).head? ≠ some 0x63 := by
  have hlaid := (Code.parse?_laid hparse).of_mem_walk hcall
  obtain ⟨hfield, hfieldKind⟩ := Retarget.field_laid hlaid hhit
  have hinner : Token.isInner field.kind = false := by rw [hfieldKind]; rfl
  obtain ⟨fn, hfn, -, hfieldOf⟩ := hhit.selects
  have hfnMem := (Tree.mem_of_child? hfn).1
  have hfieldMem := (Tree.mem_of_child? hfieldOf).1
  have hbounds := hlaid.row.bounds_of_mem hfnMem
  have hbounds' := (hlaid.of_mem_children hfnMem).row.bounds_of_mem hfieldMem
  have hmem := Tree.mem_walk_of_mem_children (Tree.mem_walk_of_mem_children hcall hfnMem) hfieldMem
  have hslice := Retarget.slice_field hlaid hhit
  obtain ⟨hname, hvariant, htext, hstop, hhead, hlast, hplain⟩ := methods_words _ hhit.mem
  dsimp only at hname hvariant htext hstop hhead hlast hplain
  simp only [List.all_eq_true, Bool.and_eq_true, decide_eq_true_eq] at hplain
  generalize Retarget.nameBytes field.text = name at hname htext hstop hhead hlast hslice
  obtain ⟨d, name, rfl⟩ : ∃ d name', name = d :: name' := by
    cases name with
    | nil => cases hname
    | cons d name => exact ⟨d, name, rfl⟩
  simp only [List.head?_cons, Option.all_some, Bool.and_eq_true, decide_eq_true_eq,
    Bool.not_eq_true'] at hhead
  have hle := hfield.start_le_stop
  have hdrop : src.drop field.start = d :: name ++ src.drop field.stop := by
    rw [← hslice]
    exact Bytes.drop_eq_slice_append hle hfield.stop_le
  have hbase : Token.base src ≤ field.start := by
    refine Token.base_le (c := d) ?_ hhead.1.1.1
    rw [← List.head?_drop, hdrop]
    rfl
  have hbehind := endsName_of_word hparse hmem hinner hbase (hslice ▸ hname)
  obtain ⟨hstartClear, hstopClear⟩ := Code.clear_of_isInner hparse hmem hinner
  have hgroup : isGroup ⟨field.start, field.stop, variant⟩ = false :=
    isGroup_eq_false fun hmem => (hplain 0x22 hmem).1.1.2 rfl
  have hmanner : Manner src ⟨field.start, field.stop, variant⟩ := by
    refine .of_longer hfield.stop_le hslice (List.cons_ne_nil _ _) (fun hparen => ?_) htext
      (.inr hbehind)
    rw [hparen] at hlast
    cases hlast
  have htame : Tame src field.start field.stop (Bytes.ofString variant) := by
    refine ⟨hle, hfield.stop_le, hstartClear.scanned hparse, hstopClear.scanned hparse, ?_,
      fun hmem => (hplain 0x2A hmem).1.1.1 rfl,
      fun hslash => (hplain 0x2F (List.mem_of_mem_head? hslash)).1.2 rfl,
      .inr (.inr fun b => ?_), .inr hbehind⟩
    · rw [hslice]
      exact fun hmem => (hplain 0x00 (by rw [htext]; exact List.mem_append_left _ hmem)).2 rfl
    · -- the longer name starts like the name, and no stretch goes over the end of that
      obtain ⟨c, hc, hrun⟩ := List.any_eq_true.mp hstop
      have hrun : Code.isRunning c = false := by simpa using hrun
      rw [hdrop, htext, List.append_assoc]
      refine ⟨?_, .inl rfl, fun c hc => ?_⟩
      · rw [Code.stretch_append_of_mem hc hrun, Code.stretch_append_of_mem hc hrun]
      · rw [← Option.some.inj hc]
        exact ⟨hhead.1.1.1, hhead.1.1.2, hhead.1.2⟩
  refine ⟨⟨?_, hmanner, field.start, field.stop, rfl, rfl, hbase, .inl ⟨htame, ?_⟩⟩, hgroup, ?_⟩
  · change Bytes.ofString variant ≠ []
    rw [htext]
    simp
  · rw [hgroup, if_neg (by decide)]
    refine ⟨?_, fun us hus => ?_, fun b hb => cuts_word_of_stops hvariant hb⟩
    · exact Import.readTo_of_mem_walk hparse hcall (by rw [hk]; rfl) (by rw [hk]; rfl)
        (by rw [hk]; decide) (by omega) (by omega)
    · rw [hslice] at hus
      have hword := Token.cuts_word hname hbehind
      obtain rfl := List.append_cancel_right (hus.atomsOf_eq.symm.trans hword.atomsOf_eq)
      simp [Plain]
  · rw [htext]
    simpa using hhead.2

end Edit

end CtxThread
