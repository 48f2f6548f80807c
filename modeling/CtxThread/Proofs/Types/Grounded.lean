import CtxThread.Proofs.Types.Circular
import CtxThread.Proofs.Types.Meaning

/-!
# Questions that were answered are answered again

When a type is found, everything it leads to has been asked for: other types, which are remembered
or being looked for, and names and calls, which lead to such types in turn. So after a question is
answered, the types that are remembered form a set that no question leads out of. Within such a set
every question is answered, whatever is remembered at the time.

## Main definitions

- `Env.Grounded`: a question leads, over names and calls, to types of a set only
- `Env.Explored`: what the remembered types lead to is remembered or being looked for
- `Env.Complete`: a set of types that no question leads out of

## Main statements

- `Env.explores_oracle`: every answer leaves an explored memo
- `Env.Complete.answers_typeOf`: types of a complete set are found
-/

namespace CtxThread

open Resolving (Answers answers_pure)

namespace Env

/-- The question leads to types of the set `S` only: it is about one of them, or a question for a
name or a call and all it asks for leads there. -/
inductive Grounded (env : Env) (S : Ref → Prop) : Question → Prop
  | type {r : Ref} (h : S r) : Grounded env S (.type r)
  | name {x : Ref} (h : ∀ q ∈ (env.script (.name x)).asks, Grounded env S q) :
      Grounded env S (.name x)
  | result {call : Ref} {i : Nat} (h : ∀ q ∈ (env.script (.result call i)).asks, Grounded env S q) :
      Grounded env S (.result call i)

/-- What the types of the set `S` ask for leads to types of `S` only. -/
def Complete (env : Env) (S : Ref → Prop) : Prop :=
  ∀ r ∈ env.refs, S r → ∀ q ∈ (env.script (.type r)).asks, env.Grounded S q

end Env

/-- The type of the node is remembered or being looked for. -/
def Memo.Knows (m : Memo) (r : Ref) : Prop :=
  r.id ∈ m.active ∨ (m.answers.lookup r.id).isSome = true

namespace Env

/-- What the remembered types have asked for leads to types that are remembered or being looked
for. -/
def Explored (env : Env) (m : Memo) : Prop :=
  ∀ r ∈ env.refs, (m.answers.lookup r.id).isSome = true →
    ∀ q ∈ (env.script (.type r)).asks, env.Grounded m.Knows q

variable {env : Env} {S : Ref → Prop} {q : Question} {o : Oracle} {m m' : Memo}

theorem Grounded.mono {S' : Ref → Prop} (h : env.Grounded S q) (hS : ∀ r, S r → S' r) :
    env.Grounded S' q := by
  induction h with
  | type h => exact .type (hS _ h)
  | name _ ih => exact .name ih
  | result _ ih => exact .result ih

theorem Grounded.of_type {r : Ref} (h : env.Grounded S (.type r)) : S r := by
  cases h with
  | type h => exact h

theorem Explored.mono (h : env.Explored m) (hanswers : m'.answers = m.answers)
    (hknows : ∀ r, m.Knows r → m'.Knows r) : env.Explored m' := by
  intro r hr hfound q hq
  rw [hanswers] at hfound
  exact (h r hr hfound q hq).mono hknows

/-- Once no type is being looked for, the remembered types are complete. -/
theorem Explored.complete (h : env.Explored m) (hactive : m.active = []) :
    env.Complete m.Knows := by
  intro r hr hknows
  rcases hknows with hmem | hfound
  · rw [hactive] at hmem
    cases hmem
  · exact h r hr hfound

/-! ## What an answer leaves behind -/

/-- From an explored memo, an answer leaves an explored memo that knows all types that the question
leads to. -/
def Explores (env : Env) (o : Oracle) : Prop :=
  ∀ q m a m', q.subject ∈ env.refs → env.Explored m → o.ask q m = some (a, m') →
    env.Explored m' ∧ m'.active = m.active ∧ (∀ r, m.Knows r → m'.Knows r) ∧
      env.Grounded m'.Knows q

theorem Explores.askAll (ho : env.Explores o) {qs : List Question}
    (hqs : ∀ q ∈ qs, q.subject ∈ env.refs) (hm : env.Explored m) {u : Unit}
    (h : o.askAll qs m = some (u, m')) :
    env.Explored m' ∧ m'.active = m.active ∧ (∀ r, m.Knows r → m'.Knows r) ∧
      ∀ q ∈ qs, env.Grounded m'.Knows q := by
  induction qs generalizing m with
  | nil =>
    cases h
    exact ⟨hm, rfl, fun _ h => h, fun _ h => absurd h List.not_mem_nil⟩
  | cons q qs ih =>
    obtain ⟨b, m₁, hq, hrest⟩ := Resolving.bind_eq_some.mp h
    obtain ⟨hm₁, hactive₁, hknows₁, hgrounded₁⟩ := ho q m b m₁ (hqs q List.mem_cons_self) hm hq
    obtain ⟨hm', hactive, hknows, hgrounded⟩ :=
      ih (fun q' hq' => hqs q' (List.mem_cons_of_mem q hq')) hm₁ hrest
    refine ⟨hm', hactive.trans hactive₁, fun r hr => hknows r (hknows₁ r hr), ?_⟩
    intro q' hq'
    rcases List.mem_cons.mp hq' with rfl | hq'
    · exact hgrounded₁.mono hknows
    · exact hgrounded q' hq'

theorem Explores.run (ho : env.Explores o) {s : Script} (hs : ∀ q ∈ s.asks, q.subject ∈ env.refs)
    (hm : env.Explored m) {a : Option Ty} (h : s.run o m = some (a, m')) :
    env.Explored m' ∧ m'.active = m.active ∧ (∀ r, m.Knows r → m'.Knows r) ∧
      ∀ q ∈ s.asks, env.Grounded m'.Knows q := by
  obtain ⟨u, m₁, hbefore, hsettle⟩ := Resolving.bind_eq_some.mp h
  obtain ⟨hm₁, hactive₁, hknows₁, hgrounded₁⟩ :=
    ho.askAll (fun q hq => hs q (Script.mem_asks.mpr (.inl hq))) hm hbefore
  cases houtcome : s.outcome with
  | known t =>
    rw [houtcome] at hsettle
    cases hsettle
    refine ⟨hm₁, hactive₁, hknows₁, fun q hq => ?_⟩
    rw [Script.mem_asks, houtcome] at hq
    exact hgrounded₁ q (hq.resolve_right (by simp))
  | follow q' f =>
    rw [houtcome] at hsettle
    obtain ⟨b, _, hq', hb⟩ := Resolving.bind_eq_some.mp hsettle
    cases hb
    have hmem := hs q' (Script.mem_asks.mpr (.inr (by rw [houtcome]; rfl)))
    obtain ⟨hm', hactive, hknows, hgrounded⟩ := ho q' m₁ b m' hmem hm₁ hq'
    refine ⟨hm', hactive.trans hactive₁, fun r hr => hknows r (hknows₁ r hr), fun q hq => ?_⟩
    rw [Script.mem_asks, houtcome] at hq
    rcases hq with hq | hq
    · exact (hgrounded₁ q hq).mono hknows
    · cases hq
      exact hgrounded

theorem Explores.typeOfWith (hclosed : env.Closed) (hindex : env.Listed)
    (hparsed : ∀ f ∈ env.files, Code.parse? f.src = some f.root) (ho : env.Explores o)
    (hsees : o.Sees env) {r : Ref} (hr : r ∈ env.refs) (hm : env.Explored m) {a : Option Ty}
    (h : env.typeOfWith o r m = some (a, m')) :
    env.Explored m' ∧ m'.active = m.active ∧ (∀ r, m.Knows r → m'.Knows r) ∧ m'.Knows r := by
  cases hfound : m.answers.lookup r.id with
  | some answer =>
    rw [typeOfWith_of_answered hfound] at h
    cases h
    exact ⟨hm, rfl, fun _ h => h, .inr (by rw [hfound]; rfl)⟩
  | none =>
    by_cases hactive : r.id ∈ m.active
    · rw [typeOfWith_of_active hfound hactive] at h
      cases h
      exact ⟨hm, rfl, fun _ h => h, .inl hactive⟩
    · rw [typeOfWith_of_fresh hfound hactive, Option.map_eq_some_iff] at h
      obtain ⟨⟨b, m₁⟩, hrun, heq⟩ := h
      obtain ⟨rfl, rfl⟩ := Prod.mk.inj heq
      rw [freshType_eq hsees] at hrun
      have hm₀ : env.Explored { m with active := r.id :: m.active } :=
        hm.mono rfl fun s hs => hs.imp_left (List.mem_cons_of_mem _)
      have hasks : ∀ q ∈ (env.script (.type r)).asks, q.subject ∈ env.refs := fun q hq =>
        (subject_of_mem_asks hclosed hindex (q := .type r) hr hq).1
      obtain ⟨hm₁, hactive₁, hknows₁, hgrounded⟩ := ho.run hasks hm₀ hrun
      -- the type is remembered instead of being looked for
      have hknows : ∀ s, m₁.Knows s →
          Memo.Knows ⟨(r.id, b) :: m₁.answers, m₁.active.erase r.id⟩ s := by
        intro s hs
        by_cases hid : s.id = r.id
        · exact .inr (by rw [hid, List.lookup_cons_self]; rfl)
        · refine hs.imp (List.mem_erase_of_ne hid).mpr fun hs => ?_
          rwa [List.lookup_cons, beq_false_of_ne hid]
      refine ⟨?_, ?_, ?_, .inr (by rw [List.lookup_cons_self]; rfl)⟩
      · intro s hs hanswered q hq
        by_cases hid : s.id = r.id
        · rcases eq_or_idle_of_id_eq hparsed hs hr hid with rfl | ⟨hidle, _⟩
          · exact (hgrounded q hq).mono hknows
          · rw [hidle] at hq
            cases hq
        · rw [List.lookup_cons, beq_false_of_ne hid] at hanswered
          exact (hm₁ s hs hanswered q hq).mono hknows
      · rw [hactive₁, List.erase_cons_head]
      · intro s hs
        exact hknows s (hknows₁ s (hs.imp_left (List.mem_cons_of_mem _)))

/-- Every answer leaves an explored memo. -/
theorem explores_oracle (hclosed : env.Closed) (hindex : env.Listed)
    (hparsed : ∀ f ∈ env.files, Code.parse? f.src = some f.root) (d : Nat) :
    env.Explores (env.oracle d) := by
  induction d with
  | zero =>
    intro q m a m' _ _ h
    rw [ask_zero] at h
    cases h
  | succ d ih =>
    intro q m a m' hq hm h
    have hasks : ∀ q' ∈ (env.script q).asks, q'.subject ∈ env.refs := fun q' hq' =>
      (subject_of_mem_asks hclosed hindex hq hq').1
    cases q with
    | type r =>
      obtain ⟨hm', hactive, hknows, hr⟩ :=
        ih.typeOfWith hclosed hindex hparsed (sees_oracle hindex d) hq hm h
      exact ⟨hm', hactive, hknows, .type hr⟩
    | name x =>
      rw [ask_succ hindex d _ (by simp)] at h
      obtain ⟨hm', hactive, hknows, hgrounded⟩ := ih.run hasks hm h
      exact ⟨hm', hactive, hknows, .name hgrounded⟩
    | result call i =>
      rw [ask_succ hindex d _ (by simp)] at h
      obtain ⟨hm', hactive, hknows, hgrounded⟩ := ih.run hasks hm h
      exact ⟨hm', hactive, hknows, .result hgrounded⟩

/-! ## Answers within a complete set -/

/-- The name that a call goes by, if the call leads to known types, leads to other names in
finitely many steps only; and so does such a name. -/
theorem Grounded.acc (h : env.Grounded S q) :
    match q with
    | .type _ => True
    | .name x => Acc (fun y x => env.Refers x y) x
    | .result call _ => ∀ y, env.callee? call = some y → Acc (fun y x => env.Refers x y) y := by
  induction h with
  | type => trivial
  | name _ ih =>
    constructor
    rintro y ⟨call, hcall, hy⟩
    obtain ⟨i, hi⟩ := mem_asks_of_mem_lookupCalls hcall
    exact ih _ hi y hy
  | result _ ih => exact fun y hy => ih _ (mem_asks_of_callee? hy _)

theorem Grounded.not_transGen {x : Ref} (h : env.Grounded S (.name x)) :
    ¬ Relation.TransGen env.Refers x x :=
  not_transGen_of_acc h.acc

theorem answers_run {A : List NodeId} {s : Script} (h : ∀ q ∈ s.asks, Answers A (o.ask q)) :
    Answers A (s.run o) := by
  have hbefore : ∀ qs : List Question, (∀ q ∈ qs, Answers A (o.ask q)) →
      Answers A (o.askAll qs) := by
    intro qs hqs
    induction qs with
    | nil => exact answers_pure ()
    | cons q qs ih =>
      exact (hqs q List.mem_cons_self).bind fun _ =>
        ih fun q' hq' => hqs q' (List.mem_cons_of_mem q hq')
  refine (hbefore s.before fun q hq => h q (Script.mem_asks.mpr (.inl hq))).bind fun _ => ?_
  cases houtcome : s.outcome with
  | known t => exact answers_pure t
  | follow q f =>
    exact (h q (Script.mem_asks.mpr (.inr (by rw [houtcome]; rfl)))).bind fun _ => answers_pure _

section

variable {A : List NodeId} {depth : Nat} (hclosed : env.Closed) (hindex : env.Listed)
  (htypes : ∀ d, depth ≤ d → ∀ r ∈ env.refs, S r → Answers A ((env.oracle d).typeOf r))

include hindex htypes

/-- A call needs one question more than the name it goes by. -/
theorem Grounded.answers_result {k i : Nat} {call : Ref} (h : env.Grounded S (.result call i))
    (hcall : call ∈ env.refs)
    (hcallee : ∀ y ∈ env.refs, env.callee? call = some y → env.Grounded S (.name y) →
      ∀ d, depth + 2 * k ≤ d → Answers A ((env.oracle d).ask (.name y)))
    {d : Nat} (hd : depth + 2 * k + 1 ≤ d) : Answers A ((env.oracle d).ask (.result call i)) := by
  obtain ⟨d, rfl⟩ : ∃ d', d = d' + 1 := ⟨d - 1, by omega⟩
  cases h with
  | result hasks =>
    rw [ask_succ hindex d _ (by simp)]
    apply answers_run
    intro q hq
    have hgrounded := hasks q hq
    obtain ⟨y, hy, _, rfl | ⟨rfl, hname⟩⟩ := mem_asks_result hcall hq
    · exact htypes d (by omega) y hy hgrounded.of_type
    · exact hcallee y hy hname hgrounded d (by omega)

include hclosed

/-- A name needs two questions more than the names it leads to. -/
theorem Grounded.answers_name {k : Nat} {x : Ref} (h : env.Grounded S (.name x))
    (hx : x ∈ env.refs) (hrank : env.rank x ≤ k) {d : Nat} (hd : depth + 2 * k + 2 ≤ d) :
    Answers A ((env.oracle d).ask (.name x)) := by
  induction k using Nat.strongRecOn generalizing x d with
  | ind k ih =>
    obtain ⟨d, rfl⟩ : ∃ d', d = d' + 1 := ⟨d - 1, by omega⟩
    cases h with
    | name hasks =>
      rw [ask_succ hindex d _ (by simp)]
      apply answers_run
      intro q hq
      have hgrounded := hasks q hq
      obtain ⟨e, he, _, rfl | ⟨i, rfl, hcall⟩⟩ := mem_asks_name hclosed hindex hx hq
      · exact htypes d (by omega) e he hgrounded.of_type
      · -- the name of the call has a smaller rank, and is asked for two questions further down
        refine hgrounded.answers_result hindex htypes (k := k) he ?_ (by omega)
        intro y hy hname hgrounded' d' hd'
        have hlt := rank_lt_of_refers hclosed hgrounded'.not_transGen hx ⟨e, hcall, hname⟩
        exact ih (k - 1) (by omega) hgrounded' hy (by omega) (by omega)

/-- Of the questions that a type asks, all are answered. -/
theorem Grounded.answers {r : Ref} (h : env.Grounded S q) (hr : r ∈ env.refs)
    (hq : q ∈ (env.script (.type r)).asks) {d : Nat} (hd : depth + 2 * env.callCount + 2 ≤ d) :
    Answers A ((env.oracle d).ask q) := by
  rcases mem_asks_type hr hq with rfl | ⟨rfl, hcall⟩ | ⟨c, hc, _, rfl | rfl⟩
  · exact h.answers_name hclosed hindex htypes hr (env.rank_le r) hd
  · refine h.answers_result hindex htypes (k := env.callCount) hr ?_ (by omega)
    intro y hy hname hgrounded d' hd'
    have hrank := rank_lt_of_mem_callees hgrounded.not_transGen (mem_callees_of_callee? hcall hname)
    exact hgrounded.answers_name hclosed hindex htypes hy (k := env.callCount - 1) (by omega)
      (by omega)
  · exact htypes d (by omega) c hc h.of_type
  · exact h.answers_name hclosed hindex htypes hc (env.rank_le c) hd

end

/-- Types of a complete set are found within a depth that grows with the nodes that are left. -/
theorem Complete.answers_of_idle_le (hS : env.Complete S) (hclosed : env.Closed)
    (hindex : env.Listed) {n : Nat} {A : List NodeId} (hidle : env.idle A ≤ n) {d : Nat}
    (hd : env.typeDepth n ≤ d) {r : Ref} (hr : r ∈ env.refs) (h : S r) :
    Answers A ((env.oracle d).typeOf r) := by
  induction n generalizing A d r with
  | zero =>
    obtain ⟨d, rfl⟩ : ∃ d', d = d' + 1 := ⟨d - 1, by rw [typeDepth] at hd; omega⟩
    apply answers_typeOfWith
    intro hid
    have hlt := idle_lt hr hid
    omega
  | succ n ih =>
    rw [typeDepth_succ] at hd
    obtain ⟨d, rfl⟩ : ∃ d', d = d' + 1 := ⟨d - 1, by omega⟩
    apply answers_typeOfWith
    intro hid
    have hlt := idle_lt hr hid
    rw [freshType_eq (sees_oracle hindex d)]
    apply answers_run
    intro q hq
    have htypes : ∀ d', env.typeDepth n ≤ d' → ∀ r' ∈ env.refs, S r' →
        Answers (r.id :: A) ((env.oracle d').typeOf r') :=
      fun d' hd' r' hr' h' => ih (by omega) hd' hr' h'
    exact (hS r hr h q hq).answers hclosed hindex htypes hr hq (by omega)

/-- Types of a complete set are found, whatever is known before. -/
theorem Complete.answers_typeOf (hS : env.Complete S) (hclosed : env.Closed)
    (hindex : env.Listed) (A : List NodeId) {r : Ref} (hr : r ∈ env.refs) (h : S r) :
    Answers A (env.typeOf r) := by
  refine hS.answers_of_idle_le hclosed hindex (env.idle_le A) ?_ hr h
  have hdepth := env.depth_eq
  omega

end Env

end CtxThread
