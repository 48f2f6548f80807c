import CtxThread.Proofs.Types.Answers

/-!
# Names that lead back to themselves

An expression whose type is being looked for is not looked into a second time, but a name that is
being looked up is. So every question about the nodes of a package has an answer, unless a name is
bound to the result of a call that goes by a name which leads back to it.

## Main statements

- `Env.typeOf_answers_iff`: all questions are answered exactly if no name is circular, and then
  within the depth that is followed
-/

namespace CtxThread

open Resolving (Answers Runs)

/-- Fewer elements are counted, where one of them is left out. -/
theorem countP_lt_countP {α : Type} {p q : α → Bool} {l : List α} {a : α}
    (h : ∀ x ∈ l, p x = true → q x = true) (ha : a ∈ l) (hp : p a = false) (hq : q a = true) :
    l.countP p < l.countP q := by
  obtain ⟨before, after, rfl⟩ := List.append_of_mem ha
  have hbefore : before.countP p ≤ before.countP q :=
    List.countP_mono_left fun x hx => h x (List.mem_append_left _ hx)
  have hafter : after.countP p ≤ after.countP q :=
    List.countP_mono_left fun x hx =>
      h x (List.mem_append_right before (List.mem_cons_of_mem a hx))
  rw [List.countP_append, List.countP_append, List.countP_cons_of_neg (by rw [hp]; decide),
    List.countP_cons_of_pos hq]
  omega

namespace Env

variable {env : Env}

/-! ## How far a name leads -/

/-- The names that calls of the package go by. -/
def callees (env : Env) : List Ref := env.callRefs.filterMap env.callee?

theorem length_callees_le (env : Env) : env.callees.length ≤ env.callCount := by
  rw [← length_callRefs]
  exact List.length_filterMap_le _ _

theorem mem_callees_of_callee? {call y : Ref} (hcall : call ∈ env.callRefs)
    (hy : env.callee? call = some y) : y ∈ env.callees :=
  List.mem_filterMap.mpr ⟨call, hcall, hy⟩

theorem mem_refs_of_mem_callees {y : Ref} (hy : y ∈ env.callees) : y ∈ env.refs := by
  obtain ⟨call, hcall, hy⟩ := List.mem_filterMap.mp hy
  exact mem_refs_of_callee? (List.mem_filter.mp hcall).1 hy

theorem mem_callees_of_refers (hclosed : env.Closed) {x y : Ref} (hx : x ∈ env.refs)
    (h : env.Refers x y) : y ∈ env.callees := by
  obtain ⟨call, hcall, hy⟩ := h
  exact mem_callees_of_callee? (mem_callRefs_of_mem_lookupCalls hclosed hx hcall) hy

open Classical in
/-- How many calls go by a name that `x` leads to. -/
noncomputable def rank (env : Env) (x : Ref) : Nat :=
  env.callees.countP fun y => Relation.TransGen env.Refers x y

theorem rank_le (env : Env) (x : Ref) : env.rank x ≤ env.callCount :=
  List.countP_le_length.trans env.length_callees_le

/-- A name that a call goes by is not among those it leads to, unless it leads back to itself. -/
theorem rank_lt_of_mem_callees {y : Ref} (hself : ¬ Relation.TransGen env.Refers y y)
    (hy : y ∈ env.callees) : env.rank y < env.callCount := by
  classical
  calc env.rank y < env.callees.countP fun _ => true :=
        countP_lt_countP (fun _ _ _ => rfl) hy (decide_eq_false hself) rfl
    _ ≤ env.callCount := List.countP_le_length.trans env.length_callees_le

theorem rank_lt_of_refers (hclosed : env.Closed) {x y : Ref}
    (hself : ¬ Relation.TransGen env.Refers y y) (hx : x ∈ env.refs) (h : env.Refers x y) :
    env.rank y < env.rank x := by
  classical
  have hy : y ∈ env.callees := mem_callees_of_refers hclosed hx h
  apply countP_lt_countP (a := y) _ hy (decide_eq_false hself) (decide_eq_true (.single h))
  intro z _ hz
  exact decide_eq_true (.head h (of_decide_eq_true hz))

/-! ## Enough depth -/

section

variable {A : List NodeId} {depth : Nat}
  (htypes : ∀ d, depth ≤ d → env.AnswersTypes (env.oracle d) A)

include htypes

/-- A call needs one question more than the name it goes by. -/
theorem answers_callResult {k : Nat} {call : Ref} (hcall : call ∈ env.refs)
    (hcallee : ∀ y, env.callee? call = some y →
      ∀ d, depth + 2 * k ≤ d → Answers A ((env.oracle d).lookup y))
    {d : Nat} (hd : depth + 2 * k + 1 ≤ d) (i : Nat) :
    Answers A ((env.oracle d).callResult call i) := by
  obtain ⟨d, rfl⟩ : ∃ d', d = d' + 1 := ⟨d - 1, by omega⟩
  change Answers A (env.callResultWith (env.oracle d) call i)
  apply answers_callResultWith (htypes d (by omega)) hcall
  exact fun y hy => hcallee y hy d (by omega)

/-- A name needs two questions more than the names it leads to. -/
theorem answers_lookup (hclosed : env.Closed) (hacyclic : ¬ env.Circular) {k : Nat} {x : Ref}
    (hx : x ∈ env.refs) (hrank : env.rank x ≤ k) {d : Nat} (hd : depth + 2 * k + 2 ≤ d) :
    Answers A ((env.oracle d).lookup x) := by
  induction k using Nat.strongRecOn generalizing x d with
  | ind k ih =>
    obtain ⟨d, rfl⟩ : ∃ d', d = d' + 1 := ⟨d - 1, by omega⟩
    apply answers_lookupWith hclosed (htypes d (by omega)) hx
    intro call hcall i
    -- the name of the call has a smaller rank, and is asked for two questions further down
    have hmem := mem_callRefs_of_mem_lookupCalls hclosed hx hcall
    refine answers_callResult htypes (k := k) (List.mem_filter.mp hmem).1 ?_ (by omega) i
    intro y hy d' hd'
    have hy' := mem_refs_of_mem_callees (mem_callees_of_callee? hmem hy)
    have hself : ¬ Relation.TransGen env.Refers y y := fun h => hacyclic ⟨y, hy', h⟩
    have hlt := rank_lt_of_refers hclosed hself hx ⟨call, hcall, hy⟩
    exact ih (k - 1) (by omega) hy' (by omega) (by omega)

end

/-- The nodes whose types are not being looked for. -/
def idle (env : Env) (A : List NodeId) : Nat := env.refs.countP fun r => r.id ∉ A

theorem idle_le (env : Env) (A : List NodeId) : env.idle A ≤ env.nodeCount := by
  rw [← length_refs]
  exact List.countP_le_length

theorem idle_lt {r : Ref} {A : List NodeId} (hr : r ∈ env.refs) (h : r.id ∉ A) :
    env.idle (r.id :: A) < env.idle A := by
  apply countP_lt_countP (a := r) _ hr
  · simp
  · simpa using h
  · intro x _ hx
    simp only [List.mem_cons, not_or, decide_eq_true_eq] at hx ⊢
    exact hx.2

/-- The depth within which types are found while all but `n` nodes are being looked for. -/
def typeDepth (env : Env) (n : Nat) : Nat := 1 + n * (2 * env.callCount + 3)

theorem typeDepth_succ (env : Env) (n : Nat) :
    env.typeDepth (n + 1) = env.typeDepth n + (2 * env.callCount + 3) := by
  rw [typeDepth, typeDepth, Nat.succ_mul]
  omega

theorem depth_eq (env : Env) :
    env.depth = env.typeDepth env.nodeCount + 2 * env.callCount + 2 := by
  rw [depth, typeDepth, Nat.succ_mul]
  omega

theorem answers_callResult_of_mem_callRefs (hclosed : env.Closed) (hacyclic : ¬ env.Circular)
    {A : List NodeId} {depth : Nat}
    (htypes : ∀ d, depth ≤ d → env.AnswersTypes (env.oracle d) A) {call : Ref}
    (hcall : call ∈ env.callRefs) {d : Nat} (hd : depth + 2 * env.callCount + 1 ≤ d) (i : Nat) :
    Answers A ((env.oracle d).callResult call i) := by
  refine answers_callResult htypes (k := env.callCount) (List.mem_filter.mp hcall).1 ?_ hd i
  intro y hy d' hd'
  have hmem := mem_callees_of_callee? hcall hy
  have hy' := mem_refs_of_mem_callees hmem
  have hrank := rank_lt_of_mem_callees (fun h => hacyclic ⟨y, hy', h⟩) hmem
  exact answers_lookup htypes hclosed hacyclic hy'
    (k := env.callCount - 1) (by omega) (by omega)

/-- Types are found within a depth that grows with the nodes that are left. -/
theorem answersTypes_of_idle_le (hclosed : env.Closed) (hacyclic : ¬ env.Circular) {n : Nat}
    {A : List NodeId} (hidle : env.idle A ≤ n) {d : Nat} (hd : env.typeDepth n ≤ d) :
    env.AnswersTypes (env.oracle d) A := by
  intro r hr
  -- the induction is on the nodes that are not being looked for: each level looks for one more
  induction n generalizing A d r with
  | zero =>
    obtain ⟨d, rfl⟩ : ∃ d', d = d' + 1 := ⟨d - 1, by rw [typeDepth] at hd; omega⟩
    apply answers_typeOfWith
    intro hid
    have hlt := idle_lt hr hid
    omega
  | succ n ih =>
    rw [typeDepth_succ] at hd
    obtain ⟨d, rfl⟩ : ∃ d', d = d' + 1 := ⟨d - 1, by omega⟩
    apply answers_typeOfWith
    intro hid
    have hlt := idle_lt hr hid
    have htypes : ∀ d', env.typeDepth n ≤ d' → env.AnswersTypes (env.oracle d') (r.id :: A) :=
      fun d' hd' r' hr' => ih (by omega) hd' r' hr'
    apply answers_freshType (htypes d (by omega)) hr
    · intro x hx
      exact answers_lookup htypes hclosed hacyclic hx (env.rank_le x) (by omega)
    · intro call hcall
      exact answers_callResult_of_mem_callRefs hclosed hacyclic htypes hcall (by omega)

/-- Without circular names, the depth that is followed is enough for every question. -/
theorem answers_of_not_circular (hclosed : env.Closed) (hacyclic : ¬ env.Circular)
    (A : List NodeId) :
    (∀ r ∈ env.refs, Answers A (env.typeOf r) ∧ Answers A (env.lookup r)) ∧
      ∀ r ∈ env.callRefs, ∀ i, Answers A (env.callResult r i) := by
  have hdepth := env.depth_eq
  have htypes : ∀ d, env.typeDepth env.nodeCount ≤ d → env.AnswersTypes (env.oracle d) A :=
    fun d hd => answersTypes_of_idle_le hclosed hacyclic (env.idle_le A) hd
  refine ⟨fun r hr => ⟨htypes env.depth (by omega) r hr, ?_⟩, fun r hr i => ?_⟩
  · exact answers_lookup htypes hclosed hacyclic hr (env.rank_le r) (by omega)
  · exact answers_callResult_of_mem_callRefs hclosed hacyclic htypes hr (by omega) i

/-! ## No depth is enough for a circular name -/

/-- A name that is found at some depth leads to names that are found at smaller depths. -/
theorem acc_of_runs_lookup {d : Nat} {x : Ref} (h : Runs ((env.oracle d).lookup x)) :
    Acc (fun y x => env.Refers x y) x := by
  induction d using Nat.strongRecOn generalizing x with
  | ind d ih =>
    constructor
    rintro y ⟨call, hcall, hy⟩
    -- the call was asked one question further down, and its name two
    match d, h with
    | 0, ⟨_, h⟩ => cases h
    | d + 1, h =>
      obtain ⟨i, hcalled⟩ := runs_callResult_of_lookupWith hcall h
      match d, hcalled with
      | 0, ⟨_, hcalled⟩ => cases hcalled
      | d + 1, hcalled =>
        exact ih d (by omega) (runs_lookup_of_callResultWith hy hcalled)

/-- A name that leads to names in finitely many steps only does not lead to itself. -/
theorem not_transGen_of_acc {x : Ref} (h : Acc (fun y x => env.Refers x y) x) :
    ¬ Relation.TransGen env.Refers x x := by
  induction h with
  | intro x _ ih =>
    intro hcycle
    obtain ⟨y, hxy, hyx⟩ := Relation.TransGen.head'_iff.mp hcycle
    exact ih y hxy (.tail' hyx hxy)

theorem kind_of_refers {x y : Ref} (h : env.Refers x y) : y.node.kind = .identifier := by
  obtain ⟨call, _, hy⟩ := h
  exact (callee?_eq_some hy).1

/-- If the type of every node is found at some depth, no name is circular. -/
theorem not_circular_of_typeOf
    (h : ∀ r ∈ env.refs, ∃ d, ((env.oracle d).typeOf r {}).isSome = true) : ¬ env.Circular := by
  rintro ⟨x, hx, hcycle⟩
  have hkind : x.node.kind = .identifier := by
    -- the last step of the cycle leads to a name that a call goes by
    obtain ⟨y, _, hyx⟩ := Relation.TransGen.tail'_iff.mp hcycle
    exact kind_of_refers hyx
  obtain ⟨d, hd⟩ := h x hx
  have hacc : Acc (fun y x => env.Refers x y) x := by
    match d, hd with
    | 0, hd => cases hd
    | d + 1, hd => exact acc_of_runs_lookup (runs_lookup_of_typeOfWith hkind hd)
  exact not_transGen_of_acc hacc hcycle

/-! ## Aliases -/

/-- The types of the package that are not among the aliases being followed. -/
def unvisited (env : Env) (visited : List NodeId) : Nat :=
  env.index.types.countP fun e => e.2.id ∉ visited

theorem unvisited_lt {visited : List NodeId} {name : String} {r : Ref}
    (hr : env.index.types.lookup name = some r) (h : r.id ∉ visited) :
    env.unvisited (r.id :: visited) < env.unvisited visited := by
  obtain ⟨before, after, heq, _⟩ := List.lookup_eq_some_iff.mp hr
  have hmem : (name, r) ∈ env.index.types := by rw [heq]; simp
  apply countP_lt_countP (a := (name, r)) _ hmem
  · simp
  · simpa using h
  · intro e _ he
    simp only [List.mem_cons, not_or, decide_eq_true_eq] at he ⊢
    exact he.2

/-- Following aliases ends by itself, before it has followed more of them than there are. -/
theorem followName_eq {visited : List NodeId} {j k : Nat} (hj : env.unvisited visited < j)
    (hk : env.unvisited visited < k) (name : String) :
    env.followName j visited name = env.followName k visited name := by
  induction j generalizing visited k name with
  | zero => omega
  | succ j ih =>
    obtain ⟨k, rfl⟩ : ∃ k', k = k' + 1 := ⟨k - 1, by omega⟩
    unfold followName
    cases hr : env.index.types.lookup name with
    | none => rfl
    | some r =>
      -- only an alias that is not being followed yet leads on, and then there is one less of them
      dsimp only
      split
      · split
        · rfl
        · rename_i hvisited
          have hlt := unvisited_lt hr (by simpa using hvisited)
          have hnames : env.followName j (r.id :: visited) = env.followName k (r.id :: visited) :=
            funext fun n => ih (by omega) (by omega) n
          rw [hnames]
      · rfl

/-! ## All questions -/

/-- Every question about the nodes of a package has an answer at some depth exactly if no name of
the package is circular, and then the depth that is followed is enough, whatever is known before.
Aliases of types are followed to their end in any case. -/
theorem typeOf_answers_iff (p : Package) :
    ((∀ r ∈ (ofPackage p).refs, ∃ d, (((ofPackage p).oracle d).typeOf r {}).isSome = true) ↔
      ¬ (ofPackage p).Circular) ∧
    (¬ (ofPackage p).Circular → ∀ m : Memo,
      (∀ r ∈ (ofPackage p).refs, ((ofPackage p).typeOf r m).isSome = true ∧
        ((ofPackage p).lookup r m).isSome = true) ∧
      ∀ r ∈ (ofPackage p).callRefs, ∀ i, ((ofPackage p).callResult r i m).isSome = true) ∧
    ∀ name fuel, (ofPackage p).index.types.length < fuel →
      (ofPackage p).followName fuel [] name = (ofPackage p).namedType name := by
  have hanswers := fun hacyclic (m : Memo) =>
    answers_of_not_circular (closed_ofPackage p) hacyclic m.active
  refine ⟨⟨not_circular_of_typeOf, ?_⟩, ?_, ?_⟩
  · intro hacyclic r hr
    exact ⟨(ofPackage p).depth, ((hanswers hacyclic {}).1 r hr).1.isSome⟩
  · intro hacyclic m
    obtain ⟨hnodes, hcalls⟩ := hanswers hacyclic m
    exact ⟨fun r hr => ⟨(hnodes r hr).1.isSome, (hnodes r hr).2.isSome⟩,
      fun r hr i => (hcalls r hr i).isSome⟩
  · intro name fuel hfuel
    have hle : (ofPackage p).unvisited [] ≤ (ofPackage p).index.types.length :=
      List.countP_le_length
    exact followName_eq (by omega) (by omega) name

/-- A variable that is bound to a result of a call of itself. -/
def selfCalling : Bytes := Bytes.ofString <|
  "package p\n\nvar (\n\ta ********struct\x7b\x7d\n\ta, b = a()\n)\n\n" ++
  "func f() \x7b\n\ta.Query()\n\x7d\n"

/-- At no depth is there an answer for every node of the file. -/
theorem typeOf_unanswered_selfCalling :
    ∃ f, SourceFile.read? ⟨"", ["a.go"]⟩ selfCalling = some f ∧
      (ofPackage ⟨"p", [f]⟩).Circular ∧
      ∃ r ∈ (ofPackage ⟨"p", [f]⟩).refs, ∀ d,
        (((ofPackage ⟨"p", [f]⟩).oracle d).typeOf r {}).isSome = false := by
  have h : ((SourceFile.read? ⟨"", ["a.go"]⟩ selfCalling).map fun f =>
      (ofPackage ⟨"p", [f]⟩).refs.any fun r => ((ofPackage ⟨"p", [f]⟩).typeOf r {}).isNone) =
        some true := by
    decide +kernel
  obtain ⟨f, hf, h⟩ := Option.map_eq_some_iff.mp h
  -- one of the types is not found, though all are without circular names
  have hcircular : (ofPackage ⟨"p", [f]⟩).Circular := by
    by_contra hacyclic
    obtain ⟨r, hr, hnone⟩ := List.any_eq_true.mp h
    have hanswers := answers_of_not_circular (closed_ofPackage _) hacyclic ({} : Memo).active
    rw [Option.isNone_iff_eq_none] at hnone
    have hsome := (hanswers.1 r hr).1.isSome
    rw [hnone] at hsome
    cases hsome
  refine ⟨f, hf, hcircular, ?_⟩
  by_contra hall
  push Not at hall
  apply not_circular_of_typeOf _ hcircular
  intro r hr
  obtain ⟨d, hd⟩ := hall r hr
  exact ⟨d, Bool.eq_true_of_not_eq_false hd⟩

end Env

end CtxThread
