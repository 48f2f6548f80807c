import CtxThread.Proofs.Types.Grounded
import Mathlib.Data.List.Forall2

/-!
# The same questions in two packages

Nodes of two packages can correspond to one another in such a way that questions about them are
answered in the same way: what is known is the same, and what is asked is asked about nodes that
correspond to one another. Then the answers are the same, even though the memos remember them under
different keys, and even though the depth of questions is bounded differently.

## Main definitions

- `Script.Alike`: scripts with the same answers and with questions about corresponding nodes
- `Env.Matching`: a correspondence of the nodes of two packages that scripts respect
- `Env.Agree`: memos with the same answers for corresponding nodes
- `Env.Mirrors`: what one oracle answers, another one answers about corresponding nodes

## Main statements

- `Env.Matching.mirrors_oracle`: an oracle mirrors another one that is no deeper
- `Env.Matching.carries_typeOf`: types of corresponding nodes are the same
-/

namespace CtxThread

/-- The same question about corresponding nodes. -/
inductive Question.Alike (T : Ref → Ref → Prop) : Question → Question → Prop
  | type {r r' : Ref} (h : T r r') : Alike T (.type r) (.type r')
  | name {r r' : Ref} (h : T r r') : Alike T (.name r) (.name r')
  | result {r r' : Ref} (h : T r r') (i : Nat) : Alike T (.result r i) (.result r' i)

/-- The same answer, or one that is made in the same way from that to the same question. -/
inductive Outcome.Alike (T : Ref → Ref → Prop) : Outcome → Outcome → Prop
  | known (t : Option Ty) : Alike T (.known t) (.known t)
  | follow {q q' : Question} (h : q.Alike T q') (f : Ty → Option Ty) :
      Alike T (.follow q f) (.follow q' f)

/-- The same questions are asked, and the answer comes from the same. -/
structure Script.Alike (T : Ref → Ref → Prop) (s s' : Script) : Prop where
  before : List.Forall₂ (Question.Alike T) s.before s'.before
  outcome : s.outcome.Alike T s'.outcome

section Symm

variable {T : Ref → Ref → Prop}

theorem Question.Alike.symm {q q' : Question} (h : q.Alike T q') :
    q'.Alike (fun r r' => T r' r) q := by
  cases h with
  | type h => exact .type h
  | name h => exact .name h
  | result h i =>
    refine .result ?_ i
    exact h

theorem Outcome.Alike.symm {s s' : Outcome} (h : s.Alike T s') :
    s'.Alike (fun r r' => T r' r) s := by
  cases h with
  | known t => exact .known t
  | follow h f => exact .follow h.symm f

theorem Script.Alike.symm {s s' : Script} (h : s.Alike T s') :
    s'.Alike (fun r r' => T r' r) s :=
  ⟨List.Forall₂.flip (h.before.imp fun _ _ hq => hq.symm), h.outcome.symm⟩

/-- A script that asks nothing and knows nothing is like no other. -/
theorem Script.Alike.idle_iff {s s' : Script} (h : s.Alike T s') :
    s = { outcome := .known none } ↔ s' = { outcome := .known none } := by
  obtain ⟨before, outcome⟩ := s
  obtain ⟨before', outcome'⟩ := s'
  obtain ⟨hbefore, houtcome⟩ := h
  constructor
  · intro heq
    cases heq
    cases hbefore
    cases houtcome
    rfl
  · intro heq
    cases heq
    cases hbefore
    cases houtcome
    rfl

end Symm

namespace Env

/-- What holds of every parsed package. -/
structure Lawful (env : Env) : Prop where
  closed : env.Closed
  listed : env.Listed
  parsed : ∀ f ∈ env.files, Code.parse? f.src = some f.root

/-- A correspondence of nodes of two packages: corresponding questions have scripts that correspond
to one another, and the identities of nodes whose types are looked for do so too. -/
structure Matching (env env' : Env) (T : Ref → Ref → Prop) : Prop where
  lawful : env.Lawful
  lawful' : env'.Lawful
  mem : ∀ r r', T r r' → r ∈ env.refs
  mem' : ∀ r r', T r r' → r' ∈ env'.refs
  script : ∀ q q', q.Alike T q' → (env.script q).Alike T (env'.script q')
  same : ∀ r r' s s', T r r' → T s s' → ¬ env.Idle (.type r) → (r.id = s.id ↔ r'.id = s'.id)

/-- Two memos have the same answers for corresponding nodes, and the same types are being looked
for. Types that are not looked for at all may be remembered in one of them only. -/
structure Agree (env env' : Env) (T : Ref → Ref → Prop) (m m' : Memo) : Prop where
  answers : ∀ r r', T r r' → ¬ env.Idle (.type r) →
    m.answers.lookup r.id = m'.answers.lookup r'.id
  active : ∀ r r', T r r' → ¬ env.Idle (.type r) → (r.id ∈ m.active ↔ r'.id ∈ m'.active)
  idle : ∀ r ∈ env.refs, env.Idle (.type r) → ∀ a, m.answers.lookup r.id = some a → a = none
  idle' : ∀ r ∈ env'.refs, env'.Idle (.type r) → ∀ a, m'.answers.lookup r.id = some a → a = none

/-- What the computation `x` results in, `y` results in from any memo that agrees. No type is being
looked for afterwards that was not before. -/
def Mirrored (env env' : Env) (T : Ref → Ref → Prop) {α : Type} (x y : Resolving α) : Prop :=
  ∀ m m' a m₁, env.Agree env' T m m' → x m = some (a, m₁) →
    ∃ m₁', y m' = some (a, m₁') ∧ env.Agree env' T m₁ m₁' ∧
      m₁.active = m.active ∧ m₁'.active = m'.active

/-- What one oracle answers, the other one answers about corresponding nodes. -/
def Mirrors (env env' : Env) (T : Ref → Ref → Prop) (o o' : Oracle) : Prop :=
  ∀ q q', q.Alike T q' → env.Mirrored env' T (o.ask q) (o'.ask q')

variable {env env' : Env} {T : Ref → Ref → Prop} {α β : Type}

theorem agree_empty : env.Agree env' T {} {} where
  answers _ _ _ _ := rfl
  active _ _ _ _ := by simp
  idle _ _ _ _ hfound := by cases hfound
  idle' _ _ _ _ hfound := by cases hfound

/-! ## Computations -/

theorem mirrored_pure (a : α) : env.Mirrored env' T (pure a) (pure a) := by
  intro m m' b m₁ hm hrun
  cases hrun
  exact ⟨m', rfl, hm, rfl, rfl⟩

theorem Mirrored.bind {x y : Resolving α} {f g : α → Resolving β}
    (hxy : env.Mirrored env' T x y) (hfg : ∀ a, env.Mirrored env' T (f a) (g a)) :
    env.Mirrored env' T (x >>= f) (y >>= g) := by
  intro m m' b m₂ hm hrun
  obtain ⟨a, m₁, hx, hf⟩ := Resolving.bind_eq_some.mp hrun
  obtain ⟨m₁', hy, hm₁, hactive, hactive'⟩ := hxy m m' a m₁ hm hx
  obtain ⟨m₂', hg, hm₂, hactive₂, hactive₂'⟩ := hfg a m₁ m₁' b m₂ hm₁ hf
  exact ⟨m₂', Resolving.bind_eq_some.mpr ⟨a, m₁', hy, hg⟩, hm₂, hactive₂.trans hactive,
    hactive₂'.trans hactive'⟩

namespace Mirrors

variable {o o' : Oracle} (ho : env.Mirrors env' T o o')

include ho

theorem askAll {qs qs' : List Question} (h : List.Forall₂ (Question.Alike T) qs qs') :
    env.Mirrored env' T (o.askAll qs) (o'.askAll qs') := by
  induction h with
  | nil => exact mirrored_pure ()
  | cons hq _ ih => exact (ho _ _ hq).bind fun _ => ih

/-- Scripts that correspond to one another lead to the same answer. -/
theorem run {s s' : Script} (h : s.Alike T s') : env.Mirrored env' T (s.run o) (s'.run o') := by
  refine (ho.askAll h.before).bind fun _ => ?_
  have houtcome := h.outcome
  revert houtcome
  generalize s.outcome = outcome
  generalize s'.outcome = outcome'
  intro houtcome
  cases houtcome with
  | known t => exact mirrored_pure t
  | follow hq f => exact (ho _ _ hq).bind fun a => mirrored_pure (a.bind f)

end Mirrors

/-- A type that is not looked for is never found, and at most this is remembered. -/
theorem typeOfWith_of_idle {o : Oracle} (hsees : o.Sees env) {r : Ref}
    (hidle : env.Idle (.type r)) {m : Memo} (hm : ∀ a, m.answers.lookup r.id = some a → a = none) :
    env.typeOfWith o r m = some (none, m) ∨
      env.typeOfWith o r m = some (none, ⟨(r.id, none) :: m.answers, m.active⟩) := by
  cases hfound : m.answers.lookup r.id with
  | some a =>
    obtain rfl := hm a hfound
    exact .inl (typeOfWith_of_answered hfound)
  | none =>
    by_cases hactive : r.id ∈ m.active
    · exact .inl (typeOfWith_of_active hfound hactive)
    · have hscript : env.typeScript r = { outcome := .known none } := hidle
      rw [typeOfWith_of_fresh hfound hactive, freshType_eq hsees, hscript]
      refine .inr ?_
      change some (none, Memo.mk ((r.id, none) :: m.answers) ((r.id :: m.active).erase r.id)) = _
      rw [List.erase_cons_head]

namespace Matching

variable (h : env.Matching env' T)

include h

theorem idle_iff {r r' : Ref} (hr : T r r') : env.Idle (.type r) ↔ env'.Idle (.type r') :=
  (h.script _ _ (.type hr)).idle_iff

theorem symm : env'.Matching env fun r r' => T r' r where
  lawful := h.lawful'
  lawful' := h.lawful
  mem r r' := h.mem' r' r
  mem' r r' := h.mem r' r
  script q q' hq := (h.script q' q hq.symm).symm
  same r r' s s' hr hs hidle :=
    (h.same r' r s' s hr hs fun hidle' => hidle ((h.idle_iff hr).mp hidle')).symm

variable {m m' : Memo}

theorem agree_symm (hm : env.Agree env' T m m') : env'.Agree env (fun r r' => T r' r) m' m where
  answers r r' hr hidle :=
    (hm.answers r' r hr fun hidle' => hidle ((h.idle_iff hr).mp hidle')).symm
  active r r' hr hidle :=
    (hm.active r' r hr fun hidle' => hidle ((h.idle_iff hr).mp hidle')).symm
  idle := hm.idle'
  idle' := hm.idle

/-- To remember that a type that is not looked for was not found changes nothing. -/
theorem agree_remember (hm : env.Agree env' T m m') {r : Ref} (hr : r ∈ env.refs)
    (hidle : env.Idle (.type r)) :
    env.Agree env' T ⟨(r.id, none) :: m.answers, m.active⟩ m' where
  answers s s' hs hbusy := by
    have hne : s.id ≠ r.id := by
      intro hid
      rcases eq_or_idle_of_id_eq h.lawful.parsed (h.mem s s' hs) hr hid with rfl | ⟨hidle', _⟩
      · exact hbusy hidle
      · exact hbusy hidle'
    rw [List.lookup_cons, beq_false_of_ne hne]
    exact hm.answers s s' hs hbusy
  active := hm.active
  idle s hs hidle' a hfound := by
    by_cases hid : s.id = r.id
    · rw [hid, List.lookup_cons_self] at hfound
      exact (Option.some.inj hfound).symm
    · rw [List.lookup_cons, beq_false_of_ne hid] at hfound
      exact hm.idle s hs hidle' a hfound
  idle' := hm.idle'

variable {r r' : Ref} (hr : T r r')

include hr

/-- Corresponding types begin to be looked for. -/
theorem agree_begin (hm : env.Agree env' T m m') :
    env.Agree env' T { m with active := r.id :: m.active }
      { m' with active := r'.id :: m'.active } where
  answers := hm.answers
  active s s' hs hbusy := by
    rw [List.mem_cons, List.mem_cons, h.same s s' r r' hs hr hbusy, hm.active s s' hs hbusy]
  idle := hm.idle
  idle' := hm.idle'

variable (hbusy : ¬ env.Idle (.type r))

include hbusy

theorem ne_of_idle {s : Ref} (hs : s ∈ env.refs) (hidle : env.Idle (.type s)) : s.id ≠ r.id := by
  intro hid
  rcases eq_or_idle_of_id_eq h.lawful.parsed hs (h.mem r r' hr) hid with rfl | ⟨_, hidle'⟩
  · exact hbusy hidle
  · exact hbusy hidle'

/-- Corresponding types are found. -/
theorem agree_end (hm : env.Agree env' T m m') (b : Option Ty) {A A' : List NodeId}
    (hactive : m.active = r.id :: A) (hactive' : m'.active = r'.id :: A')
    (hA : ∀ s s', T s s' → ¬ env.Idle (.type s) → (s.id ∈ A ↔ s'.id ∈ A')) :
    env.Agree env' T ⟨(r.id, b) :: m.answers, m.active.erase r.id⟩
      ⟨(r'.id, b) :: m'.answers, m'.active.erase r'.id⟩ where
  answers s s' hs hbusy' := by
    have hsame := h.same s s' r r' hs hr hbusy'
    by_cases hid : s.id = r.id
    · rw [hid, hsame.mp hid, List.lookup_cons_self, List.lookup_cons_self]
    · rw [List.lookup_cons, List.lookup_cons, beq_false_of_ne hid,
        beq_false_of_ne (mt hsame.mpr hid)]
      exact hm.answers s s' hs hbusy'
  active s s' hs hbusy' := by
    rw [hactive, hactive', List.erase_cons_head, List.erase_cons_head]
    exact hA s s' hs hbusy'
  idle s hs hidle a hfound := by
    rw [List.lookup_cons, beq_false_of_ne (h.ne_of_idle hr hbusy hs hidle)] at hfound
    exact hm.idle s hs hidle a hfound
  idle' s hs hidle a hfound := by
    have hbusy' : ¬ env'.Idle (.type r') := mt (h.idle_iff hr).mpr hbusy
    rw [List.lookup_cons, beq_false_of_ne (h.symm.ne_of_idle hr hbusy' hs hidle)] at hfound
    exact hm.idle' s hs hidle a hfound

omit hr hbusy

/-- A type is answered as the corresponding one is. -/
theorem mirrored_typeOfWith {o o' : Oracle} (ho : env.Mirrors env' T o o') (hsees : o.Sees env)
    (hsees' : o'.Sees env') (hr : T r r') :
    env.Mirrored env' T (env.typeOfWith o r) (env'.typeOfWith o' r') := by
  intro m m' a m₁ hm hrun
  by_cases hidle : env.Idle (.type r)
  · -- neither of the types is looked for, whatever is remembered
    have hidle' := (h.idle_iff hr).mp hidle
    have hleft := typeOfWith_of_idle hsees hidle (hm.idle r (h.mem r r' hr) hidle)
    have hright := typeOfWith_of_idle hsees' hidle' (hm.idle' r' (h.mem' r r' hr) hidle')
    have hremember : ∀ {m}, env.Agree env' T m m' →
        ∃ m₁', env'.typeOfWith o' r' m' = some (none, m₁') ∧ env.Agree env' T m m₁' ∧
          m₁'.active = m'.active := by
      intro m hm
      rcases hright with hright | hright
      · exact ⟨m', hright, hm, rfl⟩
      · have hsymm := h.symm.agree_remember (h.agree_symm hm) (h.mem' r r' hr) hidle'
        exact ⟨_, hright, h.symm.agree_symm hsymm, rfl⟩
    rcases hleft with hleft | hleft
    · rw [hleft] at hrun
      cases hrun
      obtain ⟨m₁', hrun', hm', hactive'⟩ := hremember hm
      exact ⟨m₁', hrun', hm', rfl, hactive'⟩
    · rw [hleft] at hrun
      cases hrun
      obtain ⟨m₁', hrun', hm', hactive'⟩ :=
        hremember (h.agree_remember hm (h.mem r r' hr) hidle)
      exact ⟨m₁', hrun', hm', rfl, hactive'⟩
  · have hfound' := hm.answers r r' hr hidle
    cases hfound : m.answers.lookup r.id with
    | some answer =>
      rw [hfound] at hfound'
      rw [typeOfWith_of_answered hfound] at hrun
      cases hrun
      exact ⟨m', typeOfWith_of_answered hfound'.symm, hm, rfl, rfl⟩
    | none =>
      rw [hfound] at hfound'
      have hactive_iff := hm.active r r' hr hidle
      by_cases hactive : r.id ∈ m.active
      · rw [typeOfWith_of_active hfound hactive] at hrun
        cases hrun
        exact ⟨m', typeOfWith_of_active hfound'.symm (hactive_iff.mp hactive), hm, rfl, rfl⟩
      · rw [typeOfWith_of_fresh hfound hactive, Option.map_eq_some_iff] at hrun
        obtain ⟨⟨b, n⟩, hrun, heq⟩ := hrun
        cases heq
        rw [freshType_eq hsees] at hrun
        obtain ⟨n', hrun', hn, hnactive, hnactive'⟩ :=
          ho.run (h.script _ _ (.type hr)) _ _ b n (h.agree_begin hr hm) hrun
        refine ⟨⟨(r'.id, b) :: n'.answers, n'.active.erase r'.id⟩, ?_, ?_, ?_, ?_⟩
        · rw [typeOfWith_of_fresh hfound'.symm (mt hactive_iff.mpr hactive), freshType_eq hsees']
          exact Option.map_eq_some_iff.mpr ⟨_, hrun', rfl⟩
        · exact h.agree_end hr hidle hn b hnactive hnactive' hm.active
        · rw [hnactive, List.erase_cons_head]
        · rw [hnactive', List.erase_cons_head]

/-- An oracle mirrors another one that is no deeper. -/
theorem mirrors_oracle {d e : Nat} (hde : d ≤ e) :
    env.Mirrors env' T (env.oracle d) (env'.oracle e) := by
  induction d generalizing e with
  | zero =>
    intro q q' _ m m' a m₁ _ hrun
    rw [ask_zero] at hrun
    cases hrun
  | succ d ih =>
    obtain ⟨e, rfl⟩ : ∃ e', e = e' + 1 := ⟨e - 1, by omega⟩
    have ho := ih (Nat.le_of_succ_le_succ hde)
    have hindex := h.lawful.listed
    have hindex' := h.lawful'.listed
    intro q q' hq
    have hscript := h.script q q' hq
    cases hq with
    | type hr => exact h.mirrored_typeOfWith ho (sees_oracle hindex d) (sees_oracle hindex' e) hr
    | name hr =>
      rw [ask_succ hindex d _ (by simp), ask_succ hindex' e _ (by simp)]
      exact ho.run hscript
    | result hr i =>
      rw [ask_succ hindex d _ (by simp), ask_succ hindex' e _ (by simp)]
      exact ho.run hscript

end Matching

/-! ## Types -/

/-- What the computation `x` results in after some questions, `y` results in after corresponding
ones. -/
def Carries (env env' : Env) (T : Ref → Ref → Prop) {α : Type} (x y : Resolving α) : Prop :=
  ∀ m m' a m₁, env.Agree env' T m m' → env'.Explored m' → m'.active = [] → x m = some (a, m₁) →
    ∃ m₁', y m' = some (a, m₁') ∧ env.Agree env' T m₁ m₁' ∧ env'.Explored m₁' ∧ m₁'.active = []

theorem carries_pure (a : α) : env.Carries env' T (pure a) (pure a) := by
  intro m m' b m₁ hm hexplored hactive hrun
  cases hrun
  exact ⟨m', rfl, hm, hexplored, hactive⟩

theorem Carries.bind {x y : Resolving α} {f g : α → Resolving β}
    (hxy : env.Carries env' T x y) (hfg : ∀ a, env.Carries env' T (f a) (g a)) :
    env.Carries env' T (x >>= f) (y >>= g) := by
  intro m m' b m₂ hm hexplored hactive hrun
  obtain ⟨a, m₁, hx, hf⟩ := Resolving.bind_eq_some.mp hrun
  obtain ⟨m₁', hy, hm₁, hexplored₁, hactive₁⟩ := hxy m m' a m₁ hm hexplored hactive hx
  obtain ⟨m₂', hg, hm₂⟩ := hfg a m₁ m₁' b m₂ hm₁ hexplored₁ hactive₁ hf
  exact ⟨m₂', Resolving.bind_eq_some.mpr ⟨a, m₁', hy, hg⟩, hm₂⟩

theorem carries_mapM {γ : Type} {f g : γ → Resolving β} {as : List γ}
    (h : ∀ a ∈ as, env.Carries env' T (f a) (g a)) :
    env.Carries env' T (as.mapM f) (as.mapM g) := by
  induction as with
  | nil => exact carries_pure []
  | cons a as ih =>
    rw [List.mapM_cons, List.mapM_cons]
    refine (h a List.mem_cons_self).bind fun b => ?_
    exact (ih fun c hc => h c (List.mem_cons_of_mem a hc)).bind fun bs => carries_pure (b :: bs)

/-- The types of corresponding nodes are the same, in whatever package they are found first. -/
theorem Matching.carries_typeOf (h : env.Matching env' T) {r r' : Ref} (hr : T r r') :
    env.Carries env' T (env.typeOf r) (env'.typeOf r') := by
  intro m m' a m₁ hm hexplored hactive hrun
  have hexplores : ∀ d, env'.Explores (env'.oracle d) :=
    explores_oracle h.lawful'.closed h.lawful'.listed h.lawful'.parsed
  have hmem := h.mem' r r' hr
  suffices hanswer : ∃ m₁', env'.typeOf r' m' = some (a, m₁') ∧ env.Agree env' T m₁ m₁' by
    obtain ⟨m₁', hrun', hm₁⟩ := hanswer
    obtain ⟨hexplored₁, hactive₁, _⟩ :=
      hexplores env'.depth (.type r') m' a m₁' hmem hexplored hrun'
    exact ⟨m₁', hrun', hm₁, hexplored₁, hactive₁.trans hactive⟩
  rcases Nat.le_total env.depth env'.depth with hle | hle
  · obtain ⟨m₁', hrun', hm₁, _⟩ := h.mirrors_oracle hle _ _ (.type hr) m m' a m₁ hm hrun
    exact ⟨m₁', hrun', hm₁⟩
  · -- with as many questions as in the first package there is an answer, and then the depth of the
    -- second package is enough to answer again
    obtain ⟨n, hdeep, _⟩ := h.mirrors_oracle le_rfl _ _ (.type hr) m m' a m₁ hm hrun
    obtain ⟨hexplored₁, hactive₁, _, hgrounded⟩ :=
      hexplores env.depth (.type r') m' a n hmem hexplored hdeep
    have hcomplete := hexplored₁.complete (hactive₁.trans hactive)
    obtain ⟨b, m₁', hrun', _⟩ := hcomplete.answers_typeOf h.lawful'.closed h.lawful'.listed
      m'.active hmem hgrounded.of_type m' rfl
    obtain ⟨m₂, hback, hm₂, _⟩ := h.symm.mirrors_oracle hle _ _ (.type hr) m' m b m₁'
      (h.agree_symm hm) hrun'
    obtain ⟨rfl, rfl⟩ := Prod.mk.inj (Option.some.inj (hback.symm.trans hrun))
    exact ⟨m₁', hrun', h.symm.agree_symm hm₂⟩

end Env

end CtxThread
