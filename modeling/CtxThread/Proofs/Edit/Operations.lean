import CtxThread.Proofs.Threading
import Mathlib.Algebra.Ring.Nat

/-!
# Runs of operations on a plan

All that is ever done to the plan of a file is a run of a few operations, in any order and any
number of times. Each of them leaves what is planned as it is and says how many leading arguments
it adds, so the account of a whole run follows from that of one operation.

Leading arguments of different calls go to different places. That is why the order in which they are
planned does not show in the text.

## Main definitions

- `Plan.Operation`, `Plan.perform`: an operation on a plan, and what it does and answers
- `Plan.run`: a run of operations
- `Plan.Operation.Requests`: the operation asks for the leading argument of a call
- `Plan.Extends`: nothing that is planned was removed or altered
- `Plan.Accounts`: what holds after a run

## Main statements

- `Plan.perform_extends`, `Plan.length_calls_perform`, `Plan.Leads.perform`: one operation
- `Code.pairwise_arguments`: the arguments of different calls start at different places
- `Plan.run_accounts`: all runs
-/

namespace CtxThread

open Code (Tree)

namespace Plan

/-- An operation on the plan of a file. -/
inductive Operation where
  | replace (t : Tree) (text : String)
  | insert (pos : Int) (text : String)
  | replaceSpan (start stop : Int) (text : String)
  | prepend (call : Tree)
  | patch (name : String)
  | augment (func : Tree)
  | seed (func : Tree) (statement : String)
  | addImport
  | apply

/-- What an operation answers. -/
inductive Answer where
  | nothing
  | flag (b : Bool)
  | count (n : Nat)
  | text (out : Except Edit.Overlap Bytes)

/-- Performs an operation on the plan of the file `f`. -/
def perform (f : SourceFile) (p : Plan) : Operation → Answer × Plan
  | .replace t text => (p.replace t text).map .flag id
  | .insert pos text => (.nothing, p.insert pos text)
  | .replaceSpan start stop text => (.nothing, p.replaceSpan start stop text)
  | .prepend call => (p.prependContext f.src call).map .flag id
  | .patch name => (CallSite.patch name f.src f.root p).map .count id
  | .augment func => (FileUpdate.augmentParams f.src func p).map .flag id
  | .seed func statement => (Seed.plan f.src func statement p).map .flag id
  | .addImport => (ContextImport.plan f p).map .flag id
  | .apply => (.text (p.apply f.src), p)

/-- Performs operations one after the other: their answers, and the plan in the end. -/
def run (f : SourceFile) (p : Plan) : List Operation → List Answer × Plan
  | [] => ([], p)
  | op :: ops =>
    let (answer, p) := perform f p op
    let (answers, p) := run f p ops
    (answer :: answers, p)

namespace Operation

/-- The operation asks for the leading argument of `call`: of this call, or of the calls of a name
that do not carry the context. -/
def Requests (call : Tree) : Operation → Prop
  | .prepend call' => call = call'
  | .patch name => CallSite.callee? call = some name ∧ CallSite.isThreaded call = false
  | _ => False

/-- Leading arguments are only asked for calls of the file. -/
def Within (f : SourceFile) : Operation → Prop
  | .prepend call => call ∈ f.root.allOfKind .callExpression
  | _ => True

/-- An operation that plans leading arguments and nothing else. -/
def isLeading : Operation → Bool
  | .prepend _ | .patch _ => true
  | _ => false

/-- How many leading arguments an operation says it added. -/
def gain : Operation → Answer → Nat
  | .prepend _, .flag true => 1
  | .patch _, .count n => n
  | _, _ => 0

end Operation

/-- What is planned in `p` is planned in `p'` in the same order, before all that is new. -/
structure Extends (p p' : Plan) : Prop where
  plain : p.plain <+: p'.plain
  calls : p.calls <+: p'.calls
  replaced : p.replaced <+: p'.replaced

namespace Extends

variable {p p' p'' : Plan}

theorem refl (p : Plan) : p.Extends p :=
  ⟨List.prefix_refl _, List.prefix_refl _, List.prefix_refl _⟩

theorem trans (h : p.Extends p') (h' : p'.Extends p'') : p.Extends p'' :=
  ⟨h.plain.trans h'.plain, h.calls.trans h'.calls, h.replaced.trans h'.replaced⟩

/-- No edit gets lost or changes its place among the others. -/
theorem edits (h : p.Extends p') : p.edits.Sublist p'.edits :=
  h.plain.sublist.append (h.calls.sublist.map _)

end Extends

/-! ## One operation -/

section Step

variable {f : SourceFile} {p : Plan}

/-- A leading argument is planned at the end, or nothing is done. -/
theorem prependContext_cases (p : Plan) (src : Bytes) (call : Tree) :
    p.prependContext src call = (false, p) ∨
      ∃ e, p.prependContext src call = (true, { p with calls := p.calls ++ [(call.key, e)] }) := by
  unfold prependContext
  split
  · exact .inl rfl
  · split
    · exact .inl rfl
    · exact .inr ⟨_, rfl⟩

theorem prependContext_extends (p : Plan) (src : Bytes) (call : Tree) :
    p.Extends (p.prependContext src call).2 := by
  obtain h | ⟨e, h⟩ := p.prependContext_cases src call
  · rw [h]
    exact .refl p
  · rw [h]
    exact ⟨List.prefix_refl _, List.prefix_append _ _, List.prefix_refl _⟩

theorem patch_extends (name : String) (src : Bytes) (root : Tree) (p : Plan) :
    p.Extends (CallSite.patch name src root p).2 := by
  rw [CallSite.patch_snd]
  induction (root.allOfKind .callExpression).filter (CallSite.isMissing name) generalizing p with
  | nil => exact .refl p
  | cons call calls ih => exact (p.prependContext_extends src call).trans (ih _)

/-- The calls that are newly patched are counted. -/
theorem length_calls_patch (name : String) (src : Bytes) (root : Tree) (p : Plan) :
    (CallSite.patch name src root p).2.calls.length =
      p.calls.length + (CallSite.patch name src root p).1 := by
  unfold CallSite.patch
  -- the calls planned so far go with the count so far
  refine List.foldlRecOn _ _ rfl ?_
    (motive := fun r : Nat × Plan => r.2.calls.length = p.calls.length + r.1)
  rintro ⟨n, q⟩ hq call -
  dsimp only at hq ⊢
  split
  · obtain hstep | ⟨e, hstep⟩ := q.prependContext_cases src call
    · rw [hstep]
      exact hq
    · rw [hstep]
      show (q.calls ++ [(call.key, e)]).length = p.calls.length + (n + 1)
      rw [List.length_append, List.length_singleton, hq, Nat.add_assoc]
  · exact hq

theorem plain_extends {es : List Edit} {ks : List Tree.Key} :
    p.Extends { p with plain := p.plain ++ es, replaced := p.replaced ++ ks } :=
  ⟨List.prefix_append _ _, List.prefix_refl _, List.prefix_append _ _⟩

/-- Operations other than leading arguments plan at the end of the plain edits. -/
theorem perform_plain (p : Plan) {op : Operation} (hop : op.isLeading = false) :
    ∃ es ks, (perform f p op).2 =
      { p with plain := p.plain ++ es, replaced := p.replaced ++ ks } := by
  have hsame : ∃ es ks, p = { p with plain := p.plain ++ es, replaced := p.replaced ++ ks } :=
    ⟨[], [], by simp⟩
  cases op with
  | replace t text =>
    simp only [perform, replace]
    split
    · exact hsame
    · exact ⟨[_], [_], rfl⟩
  | insert pos text => exact ⟨[⟨pos, pos, text⟩], [], by simp [perform, insert, replaceSpan]⟩
  | replaceSpan start stop text =>
    exact ⟨[⟨start, stop, text⟩], [], by simp [perform, replaceSpan]⟩
  | prepend call => cases hop
  | patch name => cases hop
  | augment func =>
    simp only [perform, FileUpdate.augmentParams]
    split
    · exact hsame
    · next list _ =>
      exact ⟨[leadingItem f.src list list.paramDecls Naming.contextParameter], [],
        by simp [replaceSpan]⟩
  | seed func statement =>
    simp only [perform, Seed.plan]
    split
    · exact hsame
    · next body _ =>
      split
      · exact hsame
      · exact ⟨Seed.edits f.src func body statement, [], by simp⟩
  | addImport =>
    exact ⟨ContextImport.edits f, [], by simp [perform, ContextImport.plan_eq]⟩
  | apply => exact hsame

/-- No operation removes or alters what is planned. -/
theorem perform_extends (p : Plan) (op : Operation) : p.Extends (perform f p op).2 := by
  cases hop : op.isLeading with
  | false =>
    obtain ⟨es, ks, h⟩ := perform_plain (f := f) p hop
    rw [h]
    exact plain_extends
  | true =>
    cases op with
    | prepend call => exact p.prependContext_extends f.src call
    | patch name => exact patch_extends name f.src f.root p
    | _ => cases hop

/-- An operation says how many leading arguments it adds. -/
theorem length_calls_perform (p : Plan) (op : Operation) :
    (perform f p op).2.calls.length = p.calls.length + op.gain (perform f p op).1 := by
  cases hop : op.isLeading with
  | false =>
    obtain ⟨es, ks, h⟩ := perform_plain (f := f) p hop
    have hgain : op.gain (perform f p op).1 = 0 := by
      cases op with
      | prepend call => cases hop
      | patch name => cases hop
      | _ => rfl
    rw [h, hgain]
    rfl
  | true =>
    cases op with
    | prepend call =>
      obtain h | ⟨e, h⟩ := p.prependContext_cases f.src call
      · simp [perform, h, Operation.gain]
      · simp [perform, h, Operation.gain]
    | patch name => exact length_calls_patch name f.src f.root p
    | _ => cases hop

/-- After an operation the calls it asks for have their leading argument too. -/
theorem Leads.perform {wants : Tree → Prop}
    (h : p.Leads f.src (f.root.allOfKind .callExpression) wants)
    (hcalls : CallSite.Distinct (f.root.allOfKind .callExpression)) {op : Operation}
    (hop : op.Within f) :
    (perform f p op).2.Leads f.src (f.root.allOfKind .callExpression)
      fun call => wants call ∨ op.Requests call := by
  cases hlead : op.isLeading with
  | false =>
    obtain ⟨es, ks, heq⟩ := perform_plain (f := f) p hlead
    refine h.congr (by rw [heq]) fun call _ => ?_
    cases op with
    | prepend call => cases hlead
    | patch name => cases hlead
    | _ => simp [Operation.Requests]
  | true =>
    cases op with
    | prepend call => exact h.prependContext hcalls hop
    | patch name =>
      refine (h.patch hcalls name).congr rfl fun call _ => ?_
      simp [Operation.Requests, CallSite.isMissing]
    | _ => cases hlead

end Step

/-! ## Runs -/

section Run

variable {f : SourceFile} {p : Plan} {ops ops' : List Operation}

theorem run_cons (f : SourceFile) (p : Plan) (op : Operation) (ops : List Operation) :
    run f p (op :: ops) = ((perform f p op).1 :: (run f (perform f p op).2 ops).1,
      (run f (perform f p op).2 ops).2) := rfl

theorem run_append (f : SourceFile) (p : Plan) (ops ops' : List Operation) :
    run f p (ops ++ ops') = ((run f p ops).1 ++ (run f (run f p ops).2 ops').1,
      (run f (run f p ops).2 ops').2) := by
  induction ops generalizing p with
  | nil => rfl
  | cons op ops ih => rw [List.cons_append, run_cons, ih, run_cons, List.cons_append]

theorem length_run (f : SourceFile) (p : Plan) (ops : List Operation) :
    (run f p ops).1.length = ops.length := by
  induction ops generalizing p with
  | nil => rfl
  | cons op ops ih => rw [run_cons, List.length_cons, List.length_cons, ih]

theorem run_extends (f : SourceFile) (p : Plan) (ops : List Operation) :
    p.Extends (run f p ops).2 := by
  induction ops generalizing p with
  | nil => exact .refl p
  | cons op ops ih => exact (p.perform_extends op).trans (ih _)

/-- The leading arguments that the operations of a run say they added. -/
def gains (f : SourceFile) (ops : List Operation) (p : Plan) : Nat :=
  (List.zipWith Operation.gain ops (run f p ops).1).sum

theorem length_calls_run (f : SourceFile) (p : Plan) (ops : List Operation) :
    (run f p ops).2.calls.length = p.calls.length + gains f ops p := by
  induction ops generalizing p with
  | nil => rfl
  | cons op ops ih =>
    have hstep := length_calls_perform (f := f) p op
    have hrest := ih (perform f p op).2
    rw [run_cons, gains, run_cons, List.zipWith_cons_cons, List.sum_cons]
    rw [gains] at hrest
    dsimp only
    omega

/-- After a run exactly the calls asked for have a leading argument more than before. -/
theorem Leads.run {wants : Tree → Prop}
    (h : p.Leads f.src (f.root.allOfKind .callExpression) wants)
    (hcalls : CallSite.Distinct (f.root.allOfKind .callExpression))
    (hops : ∀ op ∈ ops, op.Within f) :
    (run f p ops).2.Leads f.src (f.root.allOfKind .callExpression)
      fun call => wants call ∨ ∃ op ∈ ops, op.Requests call := by
  induction ops generalizing p wants with
  | nil => exact h.congr rfl (by simp)
  | cons op ops ih =>
    obtain ⟨hop, hops⟩ := List.forall_mem_cons.mp hops
    refine (ih (h.perform hcalls hop) hops).congr rfl fun call _ => ?_
    rw [List.exists_mem_cons_iff, or_assoc]

theorem leads_run (hcalls : CallSite.Distinct (f.root.allOfKind .callExpression))
    (hops : ∀ op ∈ ops, op.Within f) :
    (run f {} ops).2.Leads f.src (f.root.allOfKind .callExpression)
      fun call => ∃ op ∈ ops, op.Requests call := by
  have hempty : ({} : Plan).Leads f.src (f.root.allOfKind .callExpression) fun _ => False :=
    ⟨List.nodup_nil, by simp, by simp⟩
  exact (hempty.run hcalls hops).congr rfl (by simp)

/-- Operations that plan leading arguments plan nothing else. -/
theorem run_plain (hops : ∀ op ∈ ops, op.isLeading = true) :
    (run f p ops).2.plain = p.plain := by
  induction ops generalizing p with
  | nil => rfl
  | cons op ops ih =>
    obtain ⟨hop, hops⟩ := List.forall_mem_cons.mp hops
    rw [run_cons, ih hops]
    cases op with
    | prepend call => exact (p.prependContext_eq f.src call).1
    | patch name => exact (CallSite.patch_eq name f.src f.root p).1
    | _ => cases hop

end Run

end Plan

/-! ## Places of leading arguments -/

/-- The arguments of the two calls do not start at one place. -/
def CallSite.ArgumentsApart (a b : Tree) : Prop :=
  ∀ list list', a.child? .arguments = some list → b.child? .arguments = some list' →
    list.start ≠ list'.start

instance : Std.Symm CallSite.ArgumentsApart :=
  ⟨fun _ _ h list list' hlist hlist' => (h list' list hlist' hlist).symm⟩

/-- The arguments of different calls start at different places. -/
theorem Code.pairwise_arguments {src : Bytes} {root : Tree} (h : root.Laid src) :
    (root.allOfKind .callExpression).Pairwise CallSite.ArgumentsApart := by
  refine (List.Pairwise.and_mem.mp (h.pairwise_walk.filter _)).imp ?_
  rintro a b ⟨ha, hb, horder⟩ list list' hlist hlist'
  obtain ⟨hamem, _⟩ := List.mem_filter.mp ha
  obtain ⟨hbmem, hbkind⟩ := List.mem_filter.mp hb
  have hbcall : b.kind = .callExpression := by simpa using hbkind
  have halaid := h.of_mem_walk hamem
  have hblaid := h.of_mem_walk hbmem
  obtain ⟨hlaid, hadmits⟩ := child_laid halaid hlist
  obtain ⟨hlaid', hadmits'⟩ := child_laid hblaid hlist'
  have hkind : list.kind = .argumentList := by simpa [Code.Role.admits] using hadmits
  have hkind' : list'.kind = .argumentList := by simpa [Code.Role.admits] using hadmits'
  have hmem := (Tree.mem_of_child? hlist).1
  have hmem' := (Tree.mem_of_child? hlist').1
  obtain ⟨_, _, _, _, hrow⟩ := hlaid.row_of_brackets (.inl hkind)
  obtain ⟨_, _, _, _, hrow'⟩ := hlaid'.row_of_brackets (.inl hkind')
  have hspan := hrow.le
  have hspan' := hrow'.le
  have hbounds := halaid.row.bounds_of_mem hmem
  have hbounds' := hblaid.row.bounds_of_mem hmem'
  rcases horder with hapart | ⟨c, hc, hbc⟩
  · omega
  · have hbounds'' := (halaid.of_mem_children hc).span_le_of_mem_walk hbc
    by_cases heq : c = list
    · -- the inner call is an argument of the outer one
      subst heq
      have hne : b ≠ c := fun heq => by rw [heq, hkind] at hbcall; cases hbcall
      have hitem : b.isItem = true := by rw [Tree.isItem, hbcall]; rfl
      have := hlaid.start_lt_of_brackets (.inl hkind) hbc hne hitem
      omega
    · have := halaid.row.apart_of_ne hc hmem heq
      omega

namespace Plan

section Places

variable {f : SourceFile} {wants wants' : Tree → Prop} {p p' : Plan}

/-- Two leading arguments at one place are the same. -/
theorem Leads.edit_eq_of_start_eq (hroot : f.root.Laid f.src)
    (h : p.Leads f.src (f.root.allOfKind .callExpression) wants) {a b : Edit}
    (ha : a ∈ p.calls.map (·.2)) (hb : b ∈ p.calls.map (·.2)) (hstart : a.start = b.start) :
    a = b := by
  obtain ⟨entry, hentry, rfl⟩ := List.mem_map.mp ha
  obtain ⟨entry', hentry', rfl⟩ := List.mem_map.mp hb
  obtain ⟨call, hcall, list, hlist, rfl⟩ := h.placed entry hentry
  obtain ⟨call', hcall', list', hlist', rfl⟩ := h.placed entry' hentry'
  rw [(leadingItem_start _ _ _ _).1, (leadingItem_start _ _ _ _).1] at hstart
  have hsame : call = call' := by
    by_contra hne
    exact (Code.pairwise_arguments hroot).forall hcall hcall' hne list list' hlist hlist' (by omega)
  subst hsame
  rw [hlist] at hlist'
  cases hlist'
  rfl

/-- The leading arguments do not depend on how they came to be planned, but for their order. -/
theorem Leads.perm (hcalls : CallSite.Distinct (f.root.allOfKind .callExpression))
    (h : p.Leads f.src (f.root.allOfKind .callExpression) wants)
    (h' : p'.Leads f.src (f.root.allOfKind .callExpression) wants')
    (hwants : ∀ call ∈ f.root.allOfKind .callExpression, wants call ↔ wants' call) :
    p.calls.Perm p'.calls := by
  have hsub : ∀ {p p' : Plan} {wants wants' : Tree → Prop},
      p.Leads f.src (f.root.allOfKind .callExpression) wants →
      p'.Leads f.src (f.root.allOfKind .callExpression) wants' →
      (∀ call ∈ f.root.allOfKind .callExpression, wants call → wants' call) →
      p.calls ⊆ p'.calls := by
    intro p p' wants wants' h h' hwants entry hentry
    obtain ⟨call, hcall, list, hlist, rfl⟩ := h.placed entry hentry
    have hwanted := hwants call hcall ((h.exact call hcall).mp ⟨_, hentry⟩)
    obtain ⟨e, he⟩ := (h'.exact call hcall).mpr hwanted
    obtain ⟨call', hcall', list', hlist', heq⟩ := h'.placed _ he
    obtain ⟨hkey, rfl⟩ := Prod.mk.inj heq
    obtain rfl := List.inj_on_of_nodup_map hcalls.keys hcall hcall' hkey
    rw [hlist] at hlist'
    cases hlist'
    exact he
  refine (List.perm_ext_iff_of_nodup h.nodup.of_map h'.nodup.of_map).mpr fun entry => ⟨?_, ?_⟩
  · exact fun hentry => hsub h h' (fun call hcall => (hwants call hcall).mp) hentry
  · exact fun hentry => hsub h' h (fun call hcall => (hwants call hcall).mpr) hentry

/-- Leading arguments alone can be applied, and the order they are planned in does not show. -/
theorem Leads.exists_apply (hroot : f.root.Laid f.src)
    (hcalls : CallSite.Distinct (f.root.allOfKind .callExpression))
    (h : p.Leads f.src (f.root.allOfKind .callExpression) wants)
    (h' : p'.Leads f.src (f.root.allOfKind .callExpression) wants')
    (hwants : ∀ call ∈ f.root.allOfKind .callExpression, wants call ↔ wants' call)
    (hplain : p.plain = []) (hplain' : p'.plain = []) :
    ∃ out, p.apply f.src = .ok out ∧ p'.apply f.src = .ok out := by
  have hedits : p.edits = p.calls.map (·.2) := by rw [edits, hplain, List.nil_append]
  have hedits' : p'.edits = p'.calls.map (·.2) := by rw [edits, hplain', List.nil_append]
  have hperm : p.edits.Perm p'.edits := by
    rw [hedits, hedits']
    exact (h.perm hcalls h' hwants).map _
  have hguarded : ∀ e ∈ p.edits, e.Guarded f.src := by
    intro e he
    rw [hedits] at he
    obtain ⟨entry, hentry, rfl⟩ := List.mem_map.mp he
    obtain ⟨call, hcall, list, hlist, rfl⟩ := h.placed entry hentry
    obtain ⟨hlaid, hadmits⟩ := child_laid (hroot.of_mem_walk (List.mem_filter.mp hcall).1) hlist
    exact leadingItem_guarded hlaid (.inr (by simpa [Code.Role.admits] using hadmits)) _ _
  have hapart : p.edits.Pairwise Edit.Apart :=
    List.pairwise_of_forall_mem_list fun a ha b hb => (hguarded a ha).apart_guarded (hguarded b hb)
  obtain ⟨out, hout⟩ := Edit.splice_ok hapart fun e he => (hguarded e he).fits
  -- in order the edits are the same, because no two stand at one place
  have hsort : Order.sort Edit.le p.edits = Order.sort Edit.le p'.edits := by
    obtain ⟨hperm₁, hsorted⟩ := Edit.sorted_edits p.edits
    obtain ⟨hperm₂, hsorted'⟩ := Edit.sorted_edits p'.edits
    refine (hperm₁.trans (hperm.trans hperm₂.symm)).eq_of_pairwise ?_ hsorted hsorted'
    intro a b ha hb hab hba
    have ha' : a ∈ p.edits := Edit.mem_sort.mp ha
    have hb' : b ∈ p.edits := hperm.mem_iff.mpr (Edit.mem_sort.mp hb)
    rw [hedits] at ha' hb'
    simp only [Edit.le, Bool.or_eq_true, decide_eq_true_eq, Bool.and_eq_true] at hab hba
    exact h.edit_eq_of_start_eq hroot ha' hb' (by omega)
  refine ⟨out, hout, ?_⟩
  rw [Plan.apply, Edit.splice, ← hsort]
  exact hout

end Places

/-! ## All runs -/

/-- What holds after a run of operations on the plan of a file. -/
structure Accounts (f : SourceFile) (ops : List Operation) : Prop where
  /-- A call has a leading argument exactly if some operation asked for it. -/
  exact : ∀ call ∈ f.root.allOfKind .callExpression,
    (∃ e, (call.key, e) ∈ (run f {} ops).2.calls) ↔ ∃ op ∈ ops, op.Requests call
  /-- No call has two, and no two calls share one. -/
  once : ((run f {} ops).2.calls.map (·.1)).Nodup ∧
    ((f.root.allOfKind .callExpression).map (·.key)).Nodup
  /-- There are no others, and each inserts the context right after the parenthesis of its call,
  separated from the arguments it has. -/
  placed : ∀ entry ∈ (run f {} ops).2.calls, ∃ call ∈ f.root.allOfKind .callExpression,
    ∃ list sep, call.child? .arguments = some list ∧ f.src[list.start]? = some 0x28 ∧
      entry = (call.key, ⟨list.start + 1, list.start + 1, "ctx" ++ sep⟩) ∧
      Separates f.src list list.items sep
  /-- The answers add up to their number. -/
  counted : (List.zipWith Operation.gain ops (run f {} ops).1).sum =
    (run f {} ops).2.calls.length
  /-- The size is the number of edits, and something is planned exactly if it is not zero. -/
  size : (run f {} ops).2.size = (run f {} ops).2.edits.length ∧
    ((run f {} ops).2.isChange = true ↔ 0 < (run f {} ops).2.size)
  /-- What was planned at any time is still planned, in the same order. -/
  keeps : ∀ front, front <+: ops →
    (run f {} front).2.Extends (run f {} ops).2 ∧
      (run f {} front).2.edits.Sublist (run f {} ops).2.edits
  /-- Applying the edits answers the text of the moment and changes nothing. -/
  applies : ∀ front back, ops = front ++ .apply :: back →
    (run f {} (front ++ [.apply])).2 = (run f {} front).2 ∧
      (run f {} ops).2 = (run f {} (front ++ back)).2 ∧
      (run f {} ops).1[front.length]? = some (.text ((run f {} front).2.apply f.src))

/-- After every run of operations on the plan of a parsed file the books balance, and runs that only
plan leading arguments leave the same text if they ask for the same calls. -/
theorem run_accounts {path : Path} {src : Bytes} {f : SourceFile}
    (hf : SourceFile.read? path src = some f) :
    (∀ ops : List Operation, (∀ op ∈ ops, op.Within f) → Accounts f ops) ∧
      ∀ ops ops' : List Operation, (∀ op ∈ ops, op.Within f ∧ op.isLeading = true) →
        (∀ op ∈ ops', op.Within f ∧ op.isLeading = true) →
        (∀ call ∈ f.root.allOfKind .callExpression,
          (∃ op ∈ ops, op.Requests call) ↔ ∃ op ∈ ops', op.Requests call) →
        ∃ out, (run f {} ops).2.apply f.src = .ok out ∧
          (run f {} ops').2.apply f.src = .ok out := by
  obtain ⟨root, hparse, rfl⟩ := Option.map_eq_some_iff.mp hf
  have hcalls := Code.distinct_calls hparse
  refine ⟨fun ops hops => ?_, fun ops ops' hops hops' hsame => ?_⟩
  · have hleads := leads_run (f := ⟨path, src, root⟩) hcalls hops
    refine ⟨hleads.exact, ⟨hleads.nodup, hcalls.keys⟩, ?_, ?_, ?_, ?_, ?_⟩
    · exact hleads.exists_placed (Code.parse?_laid hparse)
    · exact ((length_calls_run _ _ ops).trans (Nat.zero_add _)).symm
    · refine ⟨by simp [size, edits], ?_⟩
      rw [isChange, decide_eq_true_eq]
      exact Nat.pos_iff_ne_zero.symm
    · rintro front ⟨back, rfl⟩
      rw [run_append]
      have hextends := run_extends ⟨path, src, root⟩ (run ⟨path, src, root⟩ {} front).2 back
      exact ⟨hextends, hextends.edits⟩
    · rintro front back rfl
      refine ⟨by rw [run_append]; rfl, by rw [run_append, run_append]; rfl, ?_⟩
      rw [run_append, List.getElem?_append_right (length_run _ _ front).le, length_run,
        Nat.sub_self]
      rfl
  · have hleads := leads_run (f := ⟨path, src, root⟩) hcalls fun op hop => (hops op hop).1
    have hleads' := leads_run (f := ⟨path, src, root⟩) hcalls fun op hop => (hops' op hop).1
    refine hleads.exists_apply (Code.parse?_laid hparse) hcalls hleads' hsame ?_ ?_
    · exact run_plain fun op hop => (hops op hop).2
    · exact run_plain fun op hop => (hops' op hop).2

/-- A call in the arguments of another, and calls that are not to gain the context. -/
def nestedCalls : Bytes := Bytes.ofString
  "package p\n\nfunc g() \x7b\n\tf(f(1), h())\n\tf(ctx)\n\x7d\n"

/-- Two of the four calls are asked for, one of them in two ways. -/
theorem run_accounts_nestedCalls :
    ∃ f call, SourceFile.read? ⟨"", ["a.go"]⟩ nestedCalls = some f ∧
      (f.root.allOfKind .callExpression)[1]? = some call ∧
      Accounts f [.prepend call, .insert 0 "", .patch "f", .apply, .prepend call, .addImport] ∧
      (run f {} [.prepend call, .insert 0 "", .patch "f", .apply, .prepend call,
        .addImport]).2.calls.length = 2 ∧
      ∃ out, (run f {} [.patch "f"]).2.apply f.src = .ok out ∧
        (run f {} [.prepend call, .patch "f", .prepend call]).2.apply f.src = .ok out := by
  have h : ((SourceFile.read? ⟨"", ["a.go"]⟩ nestedCalls).bind fun f =>
      (f.root.allOfKind .callExpression)[1]?.map fun call =>
        decide ((run f {} [.prepend call, .insert 0 "", .patch "f", .apply, .prepend call,
            .addImport]).2.calls.length = 2 ∧
          CallSite.callee? call = some "f" ∧ CallSite.isThreaded call = false)) = some true := by
    decide +kernel
  obtain ⟨f, hf, h⟩ := Option.bind_eq_some_iff.mp h
  obtain ⟨call, hcall, h⟩ := Option.map_eq_some_iff.mp h
  obtain ⟨hlength, hcallee, hthreaded⟩ := of_decide_eq_true h
  have hmem := List.mem_of_getElem? hcall
  obtain ⟨haccounts, hsame⟩ := run_accounts hf
  refine ⟨f, call, hf, hcall, haccounts _ ?_, hlength, hsame _ _ ?_ ?_ ?_⟩
  · simp [Operation.Within, hmem]
  · simp [Operation.Within, Operation.isLeading]
  · simp [Operation.Within, Operation.isLeading, hmem]
  · intro other _
    simp only [List.mem_cons, List.not_mem_nil, or_false, exists_eq_or_imp, exists_eq_left,
      Operation.Requests]
    constructor
    · exact fun h => .inr (.inl h)
    · rintro (rfl | h | rfl)
      · exact ⟨hcallee, hthreaded⟩
      · exact h
      · exact ⟨hcallee, hthreaded⟩

end Plan

end CtxThread
