import CtxThread.Proofs.Planned
import CtxThread.Proofs.Types.Meaning

/-!
# What updates ask

Updating a file asks for nothing but the types of nodes. So what holds of a memo before any question
and is kept by questions, holds whenever a call is looked at.

## Main definitions

- `Env.AsksTypes`: a computation asks only for types of nodes
- `Env.Reached`: a memo that questions lead to

## Main statements

- `Env.asksTypes_updateFile`: updating a file asks only for types
- `Env.Reached.kept`: what a contract lets a memo have, a memo that is reached has
-/

namespace CtxThread

open Code (Tree Site)

namespace Env

/-- The computation asks only for the types of nodes of the package. -/
inductive AsksTypes (env : Env) : {α : Type} → Resolving α → Prop
  | pure {α : Type} (a : α) : AsksTypes env (pure a)
  | bind {α β : Type} {x : Resolving α} {f : α → Resolving β} (hx : AsksTypes env x)
      (hf : ∀ a, AsksTypes env (f a)) : AsksTypes env (x >>= f)
  | typeOf {r : Ref} (hr : r ∈ env.refs) : AsksTypes env (env.typeOf r)

/-- Questions about nodes of the package, asked one after the other, lead to the memo. -/
inductive Reached (env : Env) : Memo → Prop
  | empty : Reached env {}
  | ask {m m' : Memo} {q : Question} {a : Option Ty} (hm : Reached env m)
      (hq : q.subject ∈ env.refs) (h : (env.oracle env.depth).ask q m = some (a, m')) :
      Reached env m'

variable {env : Env} {m m' : Memo} {α β : Type}

theorem asksTypes_mapM {f : α → Resolving β} {as : List α} (h : ∀ a ∈ as, env.AsksTypes (f a)) :
    env.AsksTypes (as.mapM f) := by
  induction as with
  | nil => exact .pure []
  | cons a as ih =>
    rw [List.mapM_cons]
    refine (h a List.mem_cons_self).bind fun b => ?_
    exact (ih fun c hc => h c (List.mem_cons_of_mem a hc)).bind fun bs => .pure (b :: bs)

theorem operand_of_methodCall? {call operand : Ref} {field : Tree}
    (h : Retarget.methodCall? call = some (operand, field)) :
    ∃ fn, call.child? .function = some fn ∧ fn.child? .operand = some operand := by
  obtain ⟨fn, hfn, h⟩ := Option.bind_eq_some_iff.mp h
  refine ⟨fn, hfn, ?_⟩
  split at h
  · split at h
    · rename_i hoperand _
      cases h
      exact hoperand
    · cases h
  · cases h

theorem asksTypes_hitIn (table : List (String × String)) (isValue : Ty → Bool) {call : Ref}
    (hcall : call ∈ env.refs) : env.AsksTypes (Retarget.hitIn env table isValue call) := by
  unfold Retarget.hitIn
  cases hmethod : Retarget.methodCall? call with
  | none => exact .pure none
  | some found =>
    obtain ⟨operand, field⟩ := found
    dsimp only
    split
    · exact .pure none
    · obtain ⟨fn, hfn, hoperand⟩ := operand_of_methodCall? hmethod
      have hmem := mem_refs_of_child? (mem_refs_of_child? hcall hfn) hoperand
      refine (AsksTypes.typeOf hmem).bind fun t => ?_
      split
      · exact .pure _
      · exact .pure none

theorem asksTypes_hit {call : Ref} (hcall : call ∈ env.refs) :
    env.AsksTypes (Retarget.hit env call) := by
  refine (asksTypes_hitIn _ _ hcall).bind fun hit => ?_
  cases hit with
  | some hit => exact .pure _
  | none => exact asksTypes_hitIn _ _ hcall

theorem asksTypes_updateFile {f : SourceFile} {i : Nat} (hf : env.files[i]? = some f)
    (s : Settings) : env.AsksTypes (updateFile env s i f) := by
  rw [updateFile_eq]
  refine (asksTypes_mapM fun site hsite => ?_).bind fun hits => .pure _
  unfold Retarget.hitAt
  split
  · exact asksTypes_hit (mem_refs.mpr ⟨f, hf, hsite⟩)
  · exact .pure none

/-- Computations that ask for types lead from a memo that is reached to another. -/
theorem AsksTypes.reached {x : Resolving α} (hx : env.AsksTypes x) (hm : env.Reached m) {a : α}
    (h : x m = some (a, m')) : env.Reached m' := by
  induction hx generalizing m m' with
  | pure a =>
    cases h
    exact hm
  | bind _ _ ihx ihf =>
    obtain ⟨b, m₁, hx, hf⟩ := Resolving.bind_eq_some.mp h
    exact ihf b (ihx hm hx) hf
  | @typeOf r hr => exact .ask (q := .type r) hm hr h

/-- What a contract lets a memo have, if anything may be asked, a memo that is reached has. -/
theorem Reached.kept (hm : env.Reached m) (C : Contract env) (hindex : env.Listed)
    (hmay : ∀ A q, q.subject ∈ env.refs → C.mayAsk A q) : C.Kept m := by
  induction hm with
  | empty =>
    intro r _ a h
    cases h
  | ask _ hq h ih => exact (C.keptBy_oracle hindex env.depth _ _ _ _ (hmay _ _ hq) ih h).2.1

end Env

end CtxThread
