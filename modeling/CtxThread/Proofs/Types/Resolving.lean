import CtxThread.Types.Resolve
import Mathlib.Logic.Basic

/-!
# Computations that look for types

A computation that looks for types has no result when questions are nested too deep. Here is what
a result of computations one after the other says about each of them, and when there is one.

## Main definitions

- `Resolving.Answers`: a computation has a result, and leaves open what was open before
- `Resolving.Runs`: a computation has a result for some memo

## Main statements

- `Resolving.bind_eq_some`: the result of two computations one after the other
-/

namespace CtxThread.Resolving

variable {α β : Type}

/-- A result of two computations one after the other is a result of the second. -/
theorem bind_eq_some {x : Resolving α} {f : α → Resolving β} {m : Memo} {r : β × Memo} :
    (x >>= f) m = some r ↔ ∃ a m', x m = some (a, m') ∧ f a m' = some r := by
  change (x m).bind (fun p => f p.1 p.2) = some r ↔ _
  rw [Option.bind_eq_some_iff]
  constructor
  · rintro ⟨⟨a, m'⟩, hx, hf⟩
    exact ⟨a, m', hx, hf⟩
  · rintro ⟨a, m', hx, hf⟩
    exact ⟨(a, m'), hx, hf⟩

theorem pure_eq_some {b : β} {m : Memo} {r : β × Memo} :
    (pure b : Resolving β) m = some r ↔ r = (b, m) := by
  change some (b, m) = some r ↔ _
  rw [Option.some.injEq, eq_comm]

theorem get_bind (f : Memo → Resolving α) (m : Memo) :
    ((get : Resolving Memo) >>= f) m = f m m := rfl

/-! ## Computations that have a result -/

section Answers

variable {A : List NodeId}

/-- Where the types of the nodes `A` are being looked for, the computation has a result, and then
the types of the same nodes are being looked for. -/
def Answers (A : List NodeId) (x : Resolving α) : Prop :=
  ∀ m, m.active = A → ∃ a m', x m = some (a, m') ∧ m'.active = A

theorem answers_pure (a : α) : Answers A (pure a) := fun m hm => ⟨a, m, rfl, hm⟩

theorem Answers.bind {x : Resolving α} {f : α → Resolving β} (hx : Answers A x)
    (hf : ∀ a, Answers A (f a)) : Answers A (x >>= f) := by
  intro m hm
  obtain ⟨a, m₁, hxm, hm₁⟩ := hx m hm
  obtain ⟨b, m₂, hfm, hm₂⟩ := hf a m₁ hm₁
  exact ⟨b, m₂, bind_eq_some.mpr ⟨a, m₁, hxm, hfm⟩, hm₂⟩

theorem Answers.map {x : Resolving α} (hx : Answers A x) (f : α → β) :
    Answers A (f <$> x) := by
  rw [map_eq_pure_bind]
  exact hx.bind fun a => answers_pure (f a)

theorem answers_foldlM {f : β → α → Resolving β} {as : List α} (b : β)
    (hf : ∀ b, ∀ a ∈ as, Answers A (f b a)) : Answers A (as.foldlM f b) := by
  induction as generalizing b with
  | nil => exact answers_pure b
  | cons a as ih =>
    rw [List.foldlM_cons]
    exact (hf b a List.mem_cons_self).bind fun b' =>
      ih b' fun c a' ha' => hf c a' (List.mem_cons_of_mem a ha')

theorem Answers.isSome {x : Resolving α} {m : Memo} (h : Answers m.active x) :
    (x m).isSome = true := by
  obtain ⟨a, m', hrun, _⟩ := h m rfl
  rw [hrun]
  rfl

end Answers

/-! ## Computations that have had a result -/

/-- The computation has a result for some memo. -/
def Runs (x : Resolving α) : Prop := ∃ m, (x m).isSome = true

theorem Runs.of_bind {x : Resolving α} {f : α → Resolving β} (h : Runs (x >>= f)) :
    Runs x ∧ ∃ a, Runs (f a) := by
  obtain ⟨m, hm⟩ := h
  obtain ⟨r, hr⟩ := Option.isSome_iff_exists.mp hm
  obtain ⟨a, m', hx, hf⟩ := bind_eq_some.mp hr
  exact ⟨⟨m, by rw [hx]; rfl⟩, a, m', by rw [hf]; rfl⟩

theorem Runs.of_map {x : Resolving α} {f : α → β} (h : Runs (f <$> x)) : Runs x := by
  rw [map_eq_pure_bind] at h
  exact h.of_bind.1

theorem Runs.of_foldlM {f : β → α → Resolving β} {as : List α} {b : β}
    (h : Runs (as.foldlM f b)) {a : α} (ha : a ∈ as) : ∃ b', Runs (f b' a) := by
  induction as generalizing b with
  | nil => cases ha
  | cons c as ih =>
    rw [List.foldlM_cons] at h
    obtain ⟨hc, b', hrest⟩ := h.of_bind
    rcases List.mem_cons.mp ha with rfl | ha
    · exact ⟨b, hc⟩
    · exact ih hrest ha

end CtxThread.Resolving
