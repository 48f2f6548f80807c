import CtxThread.Proofs.Types.Script

/-!
# What is asked

The questions that a question leads to are about the expression itself, or about expressions of the
package that stand where a value stands.

## Main definitions

- `Code.Site.isValue`: a node stands where the type of a value may be asked for
- `Question.subject`: the node that a question is about

## Main statements

- `Env.mem_asks_type`, `Env.mem_asks_name`, `Env.mem_asks_result`: what each question leads to
- `Env.mem_asks_of_mem_lookupCalls`, `Env.mem_asks_of_callee?`: every call that a name is bound to
  and every name that a call goes by is asked for
- `Env.subject_of_mem_asks`: questions lead to nodes of the package only
-/

namespace CtxThread

open Code (Tree Site Role)

namespace Code

/-- The parts that values play in a statement or in an expression. -/
def Role.isValue (r : Role) : Bool := r = .function || r = .operand || r = .right || r = .value

/-- A node stands where the type of a value may be asked for: as a part of an expression, between
parentheses, or among the values of a declaration. -/
def Site.isValue (s : Site) : Bool :=
  match s.around with
  | [] => false
  | outer :: _ =>
    s.node.role.any Role.isValue || outer.kind = .parenthesizedExpression ||
      (outer.kind = .expressionList && outer.role.any Role.isValue)

end Code

/-- The node that a question is about. -/
def Question.subject : Question → Ref
  | .type r => r
  | .name r => r
  | .result call _ => call

theorem Script.mem_asks {s : Script} {q : Question} :
    q ∈ s.asks ↔ q ∈ s.before ∨ s.outcome.next? = some q := by
  rw [asks, List.mem_append, Option.mem_toList]

@[simp] theorem Outcome.next?_known (t : Option Ty) : (Outcome.known t).next? = none := rfl

@[simp] theorem Outcome.next?_follow (q : Question) (f : Ty → Option Ty) :
    (Outcome.follow q f).next? = some q := rfl

theorem Outcome.next?_eq_some {outcome : Outcome} {q : Question} (h : outcome.next? = some q) :
    ∃ f, outcome = .follow q f := by
  cases outcome with
  | known t => cases h
  | follow q' f =>
    cases h
    exact ⟨f, rfl⟩

namespace Env

variable {env : Env} {name : String} {q : Question}

/-! ## Parts of expressions -/

theorem role_of_child? {r c : Ref} {role : Role} (h : r.child? role = some c) :
    c.node.role = some role ∧ ∃ t, c = r.move (r.site.enter t) := by
  obtain ⟨s, hs, rfl⟩ := Option.map_eq_some_iff.mp h
  obtain ⟨t, ht, rfl⟩ := Option.map_eq_some_iff.mp hs
  have hrole := List.find?_some ht
  exact ⟨of_decide_eq_true hrole, t, rfl⟩

theorem isValue_of_child? {r c : Ref} {role : Role} (hrole : role.isValue = true)
    (h : r.child? role = some c) : c.site.isValue = true := by
  obtain ⟨ht, t, rfl⟩ := role_of_child? h
  change t.role = some role at ht
  simp [Ref.move, Site.enter, Site.isValue, ht, hrole]

theorem isValue_of_firstItem? {r c : Ref} (hkind : r.node.kind = .parenthesizedExpression)
    (h : r.firstItem? = some c) : c.site.isValue = true := by
  obtain ⟨s, hs, rfl⟩ := Option.map_eq_some_iff.mp h
  obtain ⟨t, ht, rfl⟩ := Option.map_eq_some_iff.mp hs
  change r.site.node.kind = _ at hkind
  simp [Ref.move, Site.enter, Site.isValue, hkind]

theorem isValue_of_mem_valueRefs {r e : Ref} {role : Role} (hrole : role.isValue = true)
    (he : e ∈ valueRefs (r.child? role)) : e.site.isValue = true := by
  cases hv : r.child? role with
  | none => rw [hv] at he; cases he
  | some v =>
    have hvalue := isValue_of_child? hrole hv
    rw [hv] at he
    obtain ⟨s, hs, rfl⟩ := List.mem_map.mp he
    unfold Site.listItems at hs
    split at hs
    · rename_i hkind
      -- the list itself plays the part of the value
      have ht := (role_of_child? hv).1
      obtain ⟨t', _, rfl⟩ := List.mem_map.mp (List.mem_filter.mp hs).1
      unfold Ref.node at ht
      simp [Ref.move, Site.enter, Site.isValue, hkind, ht, hrole]
    · rw [List.mem_singleton.mp hs]
      exact hvalue

theorem mem_refs_of_mem_valueRefs_child? {r e : Ref} {role : Role} (hr : r ∈ env.refs)
    (he : e ∈ valueRefs (r.child? role)) : e ∈ env.refs :=
  mem_refs_of_mem_valueRefs (fun _ hv => mem_refs_of_child? hr hv) he

/-! ## Names -/

theorem next?_valueOutcome {i count : Nat} {values : Option Ref}
    (h : (valueOutcome i count values).next? = some q) :
    ∃ e ∈ valueRefs values,
      q = .type e ∨ q = .result e i ∧ valueCall? count values = some e := by
  unfold valueOutcome at h
  split at h
  · split at h
    · rename_i e he
      cases h
      exact ⟨e, List.mem_of_getElem? he, .inl rfl⟩
    · cases h
  · rename_i hlength
    split at h
    · rename_i e he
      rw [he]
      refine ⟨e, List.mem_cons_self, ?_⟩
      split_ifs at h with hkind
      · cases h
        exact .inr ⟨rfl, by rw [valueCall?, if_neg hlength, he]; exact if_pos hkind⟩
      · cases h
        exact .inl rfl
      · cases h
    · cases h

theorem next?_valueOutcome_of_call {i count : Nat} {values : Option Ref} {call : Ref}
    (h : valueCall? count values = some call) :
    (valueOutcome i count values).next? = some (.result call i) := by
  obtain ⟨hlength, hvalues, hkind⟩ := valueCall?_eq_some h
  rw [valueOutcome, if_neg hlength, hvalues]
  dsimp only
  rw [if_pos hkind]
  rfl

theorem mem_asks_specsScript {specs : List Ref} :
    q ∈ (env.specsScript name specs).asks ↔
      ∃ spec ∈ specs, (env.specOutcome name spec).next? = some q := by
  induction specs with
  | nil => simp [specsScript, Script.mem_asks]
  | cons spec specs ih =>
    cases specs with
    | nil => simp [specsScript, Script.mem_asks]
    | cons spec' specs =>
      rw [List.exists_mem_cons_iff, ← ih, specsScript]
      · simp [Script.mem_asks, or_assoc]
      · simp

theorem next?_specOutcome {spec : Ref} (h : (env.specOutcome name spec).next? = some q) :
    spec.node.child? .type = none ∧
      (valueOutcome (spec.node.names.idxOf name) spec.node.names.length
        (spec.child? .value)).next? = some q := by
  unfold specOutcome at h
  split at h
  · cases h
  · rename_i htype
    exact ⟨htype, h⟩

/-- What a statement asks for to bind a name: values, and calls among `callsIn`. -/
theorem mem_asks_bindScript {stmt : Ref} (hstmt : stmt ∈ env.refs)
    (hbinds : stmt.binds name = true) (h : q ∈ (env.bindScript stmt name).asks) :
    ∃ e ∈ env.refs, e.site.isValue = true ∧
      (q = .type e ∨ ∃ i, q = .result e i ∧ e ∈ callsIn stmt name) := by
  have hshort : ∀ {decl : Ref}, decl ∈ env.refs → decl.leftNames.contains (some name) = true →
      (shortOutcome decl name).next? = some q → ∃ e ∈ env.refs, e.site.isValue = true ∧
        (q = .type e ∨ ∃ i, q = .result e i ∧ e ∈ shortCalls decl name) := by
    intro decl hdecl hname hq
    obtain ⟨e, he, hq⟩ := next?_valueOutcome hq
    refine ⟨e, mem_refs_of_mem_valueRefs_child? hdecl he, isValue_of_mem_valueRefs rfl he, ?_⟩
    rcases hq with hq | ⟨hq, hcall⟩
    · exact .inl hq
    · exact .inr ⟨_, hq, mem_shortCalls.mpr ⟨hname, hcall⟩⟩
  unfold bindScript at h
  unfold callsIn
  cases Ref.binds_cases hbinds with
  | parameter hkind hname =>
    rw [hkind] at h
    simp [Script.mem_asks] at h
  | short hkind hname =>
    rw [hkind] at h ⊢
    exact hshort hstmt hname (by simpa [Script.mem_asks] using h)
  | spec hkind _ _ =>
    rw [hkind] at h ⊢
    obtain ⟨spec, hspec, hq⟩ := mem_asks_specsScript.mp h
    obtain ⟨hspec, hname⟩ := List.mem_filter.mp hspec
    have hmem := mem_refs_of_mem_varSpecs hstmt hspec
    obtain ⟨htype, hq⟩ := next?_specOutcome hq
    obtain ⟨e, he, hq⟩ := next?_valueOutcome hq
    refine ⟨e, mem_refs_of_mem_valueRefs_child? hmem he, isValue_of_mem_valueRefs rfl he, ?_⟩
    rcases hq with hq | ⟨hq, hcall⟩
    · exact .inl hq
    · refine .inr ⟨_, hq, List.mem_flatMap.mpr ⟨spec, hspec, ?_⟩⟩
      exact mem_specCalls.mpr ⟨hname, htype, hcall⟩
  | loop hkind hinit hname =>
    rw [hkind] at h ⊢
    rw [hinit] at h
    obtain ⟨e, he, hvalue, hq⟩ := hshort (mem_refs_of_shortInitializer? hstmt hinit) hname
      (by simpa [Script.mem_asks] using h)
    exact ⟨e, he, hvalue, by simpa [hinit] using hq⟩
  | range hkind hname =>
    rw [hkind] at h
    dsimp only at h
    split at h
    · cases hright : stmt.child? .right with
      | none => simp [hright, through, Script.mem_asks] at h
      | some right =>
        have hq : .type right = q := by simpa [hright, through, Script.mem_asks] using h
        exact ⟨right, mem_refs_of_child? hstmt hright, isValue_of_child? rfl hright, .inl hq.symm⟩
    · simp [Script.mem_asks] at h

theorem mem_asks_bindScript_of_mem_callsIn {stmt call : Ref} (h : call ∈ callsIn stmt name) :
    ∃ i, .result call i ∈ (env.bindScript stmt name).asks := by
  have hshort : ∀ {decl : Ref}, call ∈ shortCalls decl name →
      ∃ i, (shortOutcome decl name).next? = some (.result call i) := fun h =>
    ⟨_, next?_valueOutcome_of_call (mem_shortCalls.mp h).2⟩
  unfold callsIn at h
  unfold bindScript
  split at h
  case h_1 hkind =>
    rw [hkind]
    obtain ⟨i, hi⟩ := hshort h
    exact ⟨i, Script.mem_asks.mpr (.inr hi)⟩
  case h_2 hkind =>
    rw [hkind]
    obtain ⟨spec, hspec, h⟩ := List.mem_flatMap.mp h
    obtain ⟨hname, htype, hcall⟩ := mem_specCalls.mp h
    refine ⟨spec.node.names.idxOf name, mem_asks_specsScript.mpr ⟨spec, ?_, ?_⟩⟩
    · exact List.mem_filter.mpr ⟨hspec, hname⟩
    · rw [specOutcome, htype]
      exact next?_valueOutcome_of_call hcall
  case h_3 hkind =>
    rw [hkind]
    cases hinit : stmt.shortInitializer? with
    | none => rw [hinit] at h; cases h
    | some init =>
      rw [hinit] at h
      obtain ⟨i, hi⟩ := hshort (by simpa using h)
      exact ⟨i, Script.mem_asks.mpr (.inr hi)⟩
  case h_4 => cases h

theorem mem_asks_name (hclosed : env.Closed) (hindex : env.Listed) {x : Ref} (hx : x ∈ env.refs)
    (h : q ∈ (env.script (.name x)).asks) :
    ∃ e ∈ env.refs, e.site.isValue = true ∧
      (q = .type e ∨ ∃ i, q = .result e i ∧ e ∈ env.lookupCalls x) := by
  change q ∈ (env.nameScript x).asks at h
  unfold nameScript at h
  unfold lookupCalls
  cases horigin : env.origin x with
  | none =>
    rw [horigin] at h
    simp [Script.mem_asks] at h
  | some source =>
    rw [horigin] at h
    cases source with
    | inCase b => simp [Script.mem_asks] at h
    | declared stmt =>
      exact mem_asks_bindScript (mem_refs_of_origin hclosed hx horigin)
        (binds_of_origin hindex horigin) h

/-- The calls that a name is bound to are asked for. -/
theorem mem_asks_of_mem_lookupCalls {x call : Ref} (h : call ∈ env.lookupCalls x) :
    ∃ i, .result call i ∈ (env.script (.name x)).asks := by
  change ∃ i, .result call i ∈ (env.nameScript x).asks
  unfold lookupCalls at h
  unfold nameScript
  split at h
  · rename_i stmt horigin
    rw [horigin]
    exact mem_asks_bindScript_of_mem_callsIn h
  · cases h

/-! ## Calls -/

theorem mem_packageQuestions {operand : Ref} :
    q ∈ env.packageQuestions operand ↔ q = .name operand ∧ env.mayBePackage operand = true := by
  unfold packageQuestions
  split
  · rename_i h
    simp [h]
  · rename_i h
    simp [h]

theorem mem_asks_result {call : Ref} {i : Nat} (hcall : call ∈ env.refs)
    (h : q ∈ (env.script (.result call i)).asks) :
    ∃ y ∈ env.refs, y.site.isValue = true ∧
      (q = .type y ∨ q = .name y ∧ env.callee? call = some y) := by
  change q ∈ (env.resultScript call i).asks at h
  unfold resultScript at h
  split at h
  · simp [Script.mem_asks] at h
  · rename_i fn hfn
    have hfnmem := mem_refs_of_child? hcall hfn
    split at h
    · rename_i hkind
      have hq : q = .name fn := by simpa [Script.mem_asks] using h
      exact ⟨fn, hfnmem, isValue_of_child? rfl hfn, .inr ⟨hq, by simp [callee?, hfn, hkind]⟩⟩
    · rename_i hkind
      split at h
      · rename_i operand field hoperand hfield
        refine ⟨operand, mem_refs_of_child? hfnmem hoperand, isValue_of_child? rfl hoperand, ?_⟩
        rcases Script.mem_asks.mp h with h | h
        · obtain ⟨hq, hpackage⟩ := mem_packageQuestions.mp h
          simp only [mayBePackage, Bool.and_eq_true, decide_eq_true_eq] at hpackage
          exact .inr ⟨hq, by simp [callee?, hfn, hkind, hoperand, hfield, hpackage, Option.filter]⟩
        · split at h
          · cases h
          · cases h
            exact .inl rfl
      · simp [Script.mem_asks] at h
    · simp [Script.mem_asks] at h

theorem mem_asks_of_callee? {call y : Ref} (h : env.callee? call = some y) (i : Nat) :
    .name y ∈ (env.script (.result call i)).asks := by
  obtain ⟨hident, fn, hfn, hcase⟩ := callee?_eq_some h
  change .name y ∈ (env.resultScript call i).asks
  unfold resultScript
  rw [hfn]
  dsimp only
  rcases hcase with rfl | ⟨hkind, hoperand, hfield, himport⟩
  · rw [hident]
    exact Script.mem_asks.mpr (.inl List.mem_cons_self)
  · obtain ⟨field, hfield⟩ := Option.isSome_iff_exists.mp hfield
    rw [hkind, hoperand, hfield]
    refine Script.mem_asks.mpr (.inl (mem_packageQuestions.mpr ⟨rfl, ?_⟩))
    simp [mayBePackage, hident, himport]

/-! ## Types -/

theorem mem_asks_type {r : Ref} (hr : r ∈ env.refs) (h : q ∈ (env.script (.type r)).asks) :
    q = .name r ∨ q = .result r 0 ∧ r ∈ env.callRefs ∨
      ∃ c ∈ env.refs, c.site.isValue = true ∧ (q = .type c ∨ q = .name c) := by
  have hoperand : ∀ {c : Ref}, r.child? .operand = some c → q = .type c ∨ q = .name c →
      ∃ c ∈ env.refs, c.site.isValue = true ∧ (q = .type c ∨ q = .name c) := fun hc hq =>
    ⟨_, mem_refs_of_child? hr hc, isValue_of_child? rfl hc, hq⟩
  have hthrough : ∀ {f : Ty → Option Ty} {c : Option Ref}, q ∈ (through f c).asks →
      ∃ e, c = some e ∧ q = .type e := by
    intro f c hq
    cases c with
    | none => simp [through, Script.mem_asks] at hq
    | some e => exact ⟨e, rfl, by simpa [through, Script.mem_asks, eq_comm] using hq⟩
  change q ∈ (env.typeScript r).asks at h
  unfold typeScript at h
  split at h
  · exact .inl (by simpa [Script.mem_asks, eq_comm] using h)
  · rename_i hkind
    obtain ⟨e, he, hq⟩ := hthrough h
    exact .inr (.inr ⟨e, mem_refs_of_firstItem? hr he, isValue_of_firstItem? hkind he, .inl hq⟩)
  · split at h
    · rename_i operand field hop hfield
      apply Or.inr
      apply Or.inr
      apply hoperand hop
      rcases Script.mem_asks.mp h with h | h
      · exact .inr (mem_packageQuestions.mp h).1
      · split at h
        · cases h
        · cases h
          exact .inl rfl
    · simp [Script.mem_asks] at h
  · rename_i hkind
    refine .inr (.inl ⟨by simpa [Script.mem_asks, eq_comm] using h, ?_⟩)
    exact List.mem_filter.mpr ⟨hr, decide_eq_true hkind⟩
  · simp [Script.mem_asks] at h
  · simp [Script.mem_asks] at h
  · obtain ⟨e, he, hq⟩ := hthrough h
    exact .inr (.inr (hoperand he (.inl hq)))
  · obtain ⟨e, he, hq⟩ := hthrough h
    exact .inr (.inr (hoperand he (.inl hq)))
  · split at h
    · rename_i operator operand _ hop
      split at h
      · have hq : q = .type operand := by simpa [Script.mem_asks, eq_comm] using h
        exact .inr (.inr (hoperand hop (.inl hq)))
      · simp [Script.mem_asks] at h
    · simp [Script.mem_asks] at h
  · simp [Script.mem_asks] at h

/-! ## All questions -/

/-- Questions lead to nodes of the package. A type is asked for only where values stand, and so is
any other question that is not about the same node. -/
theorem subject_of_mem_asks (hclosed : env.Closed) (hindex : env.Listed) {q q' : Question}
    (hq : q.subject ∈ env.refs) (h : q' ∈ (env.script q).asks) :
    q'.subject ∈ env.refs ∧
      (q'.subject = q.subject ∧ (∀ c, q' ≠ .type c) ∨ q'.subject.site.isValue = true) := by
  cases q with
  | type r =>
    rcases mem_asks_type hq h with rfl | ⟨rfl, _⟩ | ⟨c, hc, hvalue, rfl | rfl⟩
    · exact ⟨hq, .inl ⟨rfl, by simp⟩⟩
    · exact ⟨hq, .inl ⟨rfl, by simp⟩⟩
    · exact ⟨hc, .inr hvalue⟩
    · exact ⟨hc, .inr hvalue⟩
  | name x =>
    obtain ⟨e, he, hvalue, rfl | ⟨i, rfl, _⟩⟩ := mem_asks_name hclosed hindex hq h
    · exact ⟨he, .inr hvalue⟩
    · exact ⟨he, .inr hvalue⟩
  | result call i =>
    obtain ⟨y, hy, hvalue, rfl | ⟨rfl, _⟩⟩ := mem_asks_result hq h
    · exact ⟨hy, .inr hvalue⟩
    · exact ⟨hy, .inr hvalue⟩

end Env

end CtxThread
