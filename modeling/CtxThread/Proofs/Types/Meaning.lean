import CtxThread.Proofs.Code.Keys
import CtxThread.Proofs.Types.Asks

/-!
# What questions mean

A question stands for a type if the chain of questions that its answer is made from ends at a type.
A chain that leads back to itself ends nowhere. This says nothing about answers remembered or about
expressions whose types are being looked for, and yet it is what every answer comes down to: where
a question is cut off because its own type is being looked for, it stands for no type.

## Main definitions

- `Env.Means`: a question stands for a type
- `Env.Right`: an answer to a question is what the question stands for
- `Env.Regular`: a declaration names no variable twice, and blank names are not values
- `Env.Waits`: a question may be asked while other types are being looked for
- `Env.Contract`: what may be asked and what may be answered
- `Env.answering`, `Env.meaning`: right answers in regular packages and in any package

## Main statements

- `Env.right_none_of_cycle`: a question that leads back to itself stands for no type
- `Env.Contract.keptBy_oracle`: every contract is kept
-/

namespace CtxThread

open Code (Tree Site)

open Relation (TransGen)

namespace Env

variable (env : Env)

/-- The answer to the question `q` is made from the answer to `q'`. -/
def Leads (q q' : Question) : Prop := (env.script q).outcome.next? = some q'

/-- A question stands for a type. -/
inductive Means : Question → Ty → Prop
  | known {q : Question} {t : Ty} (h : (env.script q).outcome = .known (some t)) : Means q t
  | follow {q q' : Question} {f : Ty → Option Ty} {t t' : Ty}
      (h : (env.script q).outcome = .follow q' f) (hmeans : Means q' t') (ht : f t' = some t) :
      Means q t

/-- The answer `a` is the type that the question stands for, or none if there is none. -/
def Right (q : Question) (a : Option Ty) : Prop := ∀ t, a = some t ↔ env.Means q t

/-- A question that leads nowhere. -/
def Idle (q : Question) : Prop := env.script q = { outcome := .known none }

/-- In the files of the package, which are parsed texts, no declaration of variables has two specs
that name the same variable, and the blank name is not used as a value. -/
structure Regular : Prop where
  parsed : ∀ f ∈ env.files, Code.parse? f.src = some f.root
  once : ∀ decl ∈ env.refs, decl.node.kind = .varDeclaration → ∀ name ≠ "_",
    (decl.specs.filter (·.node.names.contains name)).length ≤ 1
  blank : ∀ r ∈ env.refs, r.node.text = "_" → r.site.isValue = false

end Env

/-- What regularity asks of one node: of its names, if it declares variables, and of its place, if
it is blank. -/
def Ref.isRegular (r : Ref) : Bool :=
  (r.node.kind ≠ .varDeclaration || (r.specs.flatMap (·.node.names)).all fun name =>
    name = "_" || (r.specs.filter (·.node.names.contains name)).length ≤ 1) &&
  (r.node.text ≠ "_" || !r.site.isValue)

namespace Env

variable {env : Env} {q q' : Question} {a : Option Ty}

/-- Parsed files are checked node by node. -/
theorem regular_of_all (hparsed : ∀ f ∈ env.files, Code.parse? f.src = some f.root)
    (h : env.refs.all Ref.isRegular = true) : env.Regular := by
  have hnode : ∀ r ∈ env.refs, r.isRegular = true := List.all_eq_true.mp h
  refine ⟨hparsed, ?_, ?_⟩
  · intro decl hdecl hkind name hname
    have hcheck := (Bool.and_eq_true_iff.mp (hnode decl hdecl)).1
    simp only [hkind, ne_eq, not_true_eq_false, decide_false, Bool.false_or, List.all_eq_true,
      Bool.or_eq_true, decide_eq_true_eq] at hcheck
    -- a name that no spec has is not checked, and needs no check
    by_cases hmem : name ∈ decl.specs.flatMap (·.node.names)
    · exact (hcheck name hmem).resolve_left hname
    · have hnil : decl.specs.filter (·.node.names.contains name) = [] := by
        refine List.filter_eq_nil_iff.mpr fun spec hspec hcontains => hmem ?_
        exact List.mem_flatMap.mpr ⟨spec, hspec, List.contains_iff_mem.mp hcontains⟩
      rw [hnil]
      exact Nat.zero_le 1
  · intro r hr hblank
    have hcheck := (Bool.and_eq_true_iff.mp (hnode r hr)).2
    simpa [hblank] using hcheck

/-! ## Right answers -/

theorem Right.unique {b : Option Ty} (ha : env.Right q a) (hb : env.Right q b) : a = b :=
  Option.ext fun t => (ha t).trans (hb t).symm

theorem right_known (h : (env.script q).outcome = .known a) : env.Right q a := by
  intro t
  constructor
  · rintro rfl
    exact .known h
  · intro hmeans
    cases hmeans with
    | known h' => rw [h] at h'; cases h'; rfl
    | follow h' => rw [h] at h'; cases h'

theorem Right.follow {f : Ty → Option Ty} (h : (env.script q).outcome = .follow q' f)
    (ha : env.Right q' a) : env.Right q (a.bind f) := by
  intro t
  rw [Option.bind_eq_some_iff]
  constructor
  · rintro ⟨t', ht', hf⟩
    exact .follow h ((ha t').mp ht') hf
  · intro hmeans
    cases hmeans with
    | known h' => rw [h] at h'; cases h'
    | follow h' hmeans ht =>
      rw [h] at h'
      cases h'
      exact ⟨_, (ha _).mpr hmeans, ht⟩

theorem right_none_of_leads (h : env.Leads q q') (hq' : env.Right q' none) :
    env.Right q none := by
  obtain ⟨f, hf⟩ := Outcome.next?_eq_some h
  exact hq'.follow hf

theorem right_none_of_transGen (h : TransGen env.Leads q q') (hq' : env.Right q' none) :
    env.Right q none := by
  induction h using TransGen.head_induction_on with
  | single h => exact right_none_of_leads h hq'
  | head h _ ih => exact right_none_of_leads h ih

theorem not_cycle_of_means {t : Ty} (h : env.Means q t) : ¬ TransGen env.Leads q q := by
  induction h with
  | known h =>
    intro hcycle
    obtain ⟨q', hlead, _⟩ := TransGen.head'_iff.mp hcycle
    rw [Leads, h] at hlead
    cases hlead
  | follow h _ _ ih =>
    intro hcycle
    obtain ⟨q', hlead, hback⟩ := TransGen.head'_iff.mp hcycle
    have heq := hlead
    rw [Leads, h] at heq
    cases heq
    exact ih (.tail' hback hlead)

/-- A question that leads back to itself stands for no type. -/
theorem right_none_of_cycle (h : TransGen env.Leads q q) : env.Right q none := by
  intro t
  constructor
  · intro ht
    cases ht
  · intro hmeans
    exact absurd h (not_cycle_of_means hmeans)

/-! ## Nodes that share their identity -/

theorem idle_of_not_anchored {r : Ref} (h : r.node.kind.isAnchored = false) :
    env.Idle (.type r) := by
  change env.typeScript r = _
  unfold typeScript
  split
  case h_10 => rfl
  all_goals
    rename_i hkind
    rw [hkind] at h
    cases h

/-- Two nodes of the same identity are the same, or their types are not even looked for. -/
theorem eq_or_idle_of_id_eq (hparsed : ∀ f ∈ env.files, Code.parse? f.src = some f.root)
    {r r' : Ref} (hr : r ∈ env.refs) (hr' : r' ∈ env.refs) (hid : r.id = r'.id) :
    r = r' ∨ env.Idle (.type r) ∧ env.Idle (.type r') := by
  obtain ⟨hfile, hkey⟩ := NodeId.mk.inj hid
  have hkind : r.node.kind = r'.node.kind := congrArg Tree.Key.kind hkey
  cases hanchored : r.node.kind.isAnchored with
  | false => exact .inr ⟨idle_of_not_anchored hanchored, idle_of_not_anchored (hkind ▸ hanchored)⟩
  | true =>
    obtain ⟨f, hf, hs⟩ := mem_refs.mp hr
    obtain ⟨f', hf', hs'⟩ := mem_refs.mp hr'
    rw [← hfile, hf] at hf'
    cases hf'
    have hsite := Site.eq_of_key_eq (hparsed f (List.mem_of_getElem? hf)) hs hs' hanchored hkey
    obtain ⟨i, s⟩ := r
    obtain ⟨i', s'⟩ := r'
    exact .inl (by simp_all)

theorem right_of_id_eq (hparsed : ∀ f ∈ env.files, Code.parse? f.src = some f.root)
    {r r' : Ref} (hr : r ∈ env.refs) (hr' : r' ∈ env.refs) (hid : r.id = r'.id)
    (ha : env.Right (.type r) a) : env.Right (.type r') a := by
  rcases eq_or_idle_of_id_eq hparsed hr hr' hid with rfl | ⟨hidle, hidle'⟩
  · exact ha
  · have hnone : a = none := ha.unique (right_known (congrArg Script.outcome hidle))
    rw [hnone]
    exact right_known (congrArg Script.outcome hidle')

/-! ## Questions whose answers are not used -/

theorem idle_name_of_origin {x : Ref} (h : env.origin x = none) : env.Idle (.name x) := by
  change env.nameScript x = _
  rw [nameScript, h]

/-- The operand of a selector is looked up only to be sure that it is no package, before its type
is asked for. -/
theorem idle_or_leads_of_mem_packageQuestions {operand : Ref} {known : Option Ty}
    {f : Ty → Option Ty} (hq' : q' ∈ env.packageQuestions operand)
    (houtcome : (env.script q).outcome =
      if env.isPackage operand then .known known else .follow (.type operand) f) :
    env.Idle q' ∨ TransGen env.Leads q q' := by
  obtain ⟨rfl, hmay⟩ := mem_packageQuestions.mp hq'
  by_cases hpackage : env.isPackage operand = true
  · rw [isPackage, hmay, Bool.true_and, Option.isNone_iff_eq_none] at hpackage
    exact .inl (idle_name_of_origin hpackage)
  · rw [if_neg hpackage] at houtcome
    have hkind : operand.node.kind = .identifier := by
      simp only [mayBePackage, Bool.and_eq_true, decide_eq_true_eq] at hmay
      exact hmay.1
    refine .inr (.head (b := .type operand) ?_ (.single ?_))
    · rw [Leads, houtcome]
      rfl
    · change (env.typeScript operand).outcome.next? = _
      rw [typeScript, hkind]
      rfl

theorem before_bindScript_eq_nil (hregular : env.Regular) {stmt : Ref} (hstmt : stmt ∈ env.refs)
    {name : String} (hname : name ≠ "_") : (env.bindScript stmt name).before = [] := by
  unfold bindScript
  split
  case h_3 hkind =>
    have hlength := hregular.once stmt hstmt hkind name hname
    generalize stmt.specs.filter (·.node.names.contains name) = specs at hlength
    match specs, hlength with
    | [], _ => rfl
    | [spec], _ => rfl
  case h_4 => split <;> rfl
  case h_5 =>
    split
    · cases stmt.child? .right with
      | none => rfl
      | some right => rfl
    · rfl
  all_goals rfl

/-- A question that is asked first, and its answer not used, leads nowhere or is asked again later,
or the answer is none anyway. -/
theorem cases_of_mem_before (hclosed : env.Closed) (hregular : env.Regular)
    (hq : q.subject ∈ env.refs) (hblank : q.subject.node.text ≠ "_")
    (hq' : q' ∈ (env.script q).before) :
    env.Idle q' ∨ env.Right q none ∨ TransGen env.Leads q q' := by
  cases q with
  | type r =>
    change q' ∈ (env.typeScript r).before at hq'
    have houtcome : (env.script (.type r)).outcome = (env.typeScript r).outcome := rfl
    unfold typeScript at hq' houtcome
    split at hq'
    case h_3 hkind =>
      rw [hkind] at houtcome
      split at hq'
      · rename_i operand field hoperand hfield
        rw [hoperand, hfield] at houtcome
        exact (idle_or_leads_of_mem_packageQuestions hq' houtcome).imp_right .inr
      · cases hq'
    case h_2 => cases hitem : r.firstItem? <;> rw [hitem] at hq' <;> cases hq'
    case h_7 => cases hitem : r.child? .operand <;> rw [hitem] at hq' <;> cases hq'
    case h_8 => cases hitem : r.child? .operand <;> rw [hitem] at hq' <;> cases hq'
    case h_9 =>
      split at hq'
      · split at hq' <;> cases hq'
      · cases hq'
    all_goals cases hq'
  | name x =>
    change q' ∈ (env.nameScript x).before at hq'
    unfold nameScript at hq'
    split at hq'
    · rename_i stmt horigin
      have hnil : (env.bindScript stmt x.node.text).before = [] :=
        before_bindScript_eq_nil hregular (mem_refs_of_origin hclosed hq horigin) hblank
      rw [hnil] at hq'
      cases hq'
    · cases hq'
    · cases hq'
  | result call i =>
    change q' ∈ (env.resultScript call i).before at hq'
    have houtcome : (env.script (.result call i)).outcome = (env.resultScript call i).outcome := rfl
    unfold resultScript at hq' houtcome
    split at hq'
    · cases hq'
    · rename_i fn hfn
      rw [hfn] at houtcome
      dsimp only at houtcome
      split at hq'
      · rename_i hkind
        rw [hkind] at houtcome
        rw [List.mem_singleton.mp hq']
        cases horigin : env.origin fn with
        | none => exact .inl (idle_name_of_origin horigin)
        | some source =>
          rw [horigin] at houtcome
          exact .inr (.inl (right_known houtcome))
      · rename_i hkind
        rw [hkind] at houtcome
        split at hq'
        · rename_i operand field hoperand hfield
          rw [hoperand, hfield] at houtcome
          exact (idle_or_leads_of_mem_packageQuestions hq' houtcome).imp_right .inr
        · cases hq'
      · cases hq'

theorem cases_of_mem_asks (hclosed : env.Closed) (hregular : env.Regular)
    (hq : q.subject ∈ env.refs) (hblank : q.subject.node.text ≠ "_")
    (hq' : q' ∈ (env.script q).asks) :
    env.Idle q' ∨ env.Right q none ∨ TransGen env.Leads q q' := by
  rcases Script.mem_asks.mp hq' with hq' | hq'
  · exact cases_of_mem_before hclosed hregular hq hblank hq'
  · exact .inr (.inr (.single hq'))

/-! ## Asking while other types are being looked for -/

/-- The question may be asked while the types of the nodes `A` are being looked for: it leads
nowhere, or each of these types stands for nothing or depends on it. The type of a blank name may be
looked for too, as long as the question is not for that type. -/
def Waits (env : Env) (A : List NodeId) (q : Question) : Prop :=
  env.Idle q ∨ ∀ r ∈ env.refs, r.id ∈ A → r.node.text = "_" ∧ q ≠ .type r ∨
    q.subject.node.text ≠ "_" ∧ (env.Right (.type r) none ∨ TransGen env.Leads (.type r) q)

section

variable {A : List NodeId}

theorem waits_nil (q : Question) : env.Waits [] q :=
  .inr fun _ _ h => absurd h List.not_mem_nil

/-- A type that is being looked for is asked for again only if it stands for nothing. -/
theorem Waits.right_none {r : Ref} (h : env.Waits A (.type r)) (hr : r ∈ env.refs)
    (hactive : r.id ∈ A) : env.Right (.type r) none := by
  rcases h with hidle | h
  · exact right_known (congrArg Script.outcome hidle)
  · rcases h r hr hactive with ⟨_, hne⟩ | ⟨_, hnone | hcycle⟩
    · exact absurd rfl hne
    · exact hnone
    · exact right_none_of_cycle hcycle

variable (hclosed : env.Closed) (hindex : env.Listed) (hregular : env.Regular)

include hclosed hindex hregular

/-- What is asked for is not the type of a blank name, nor about one unless the question is. -/
theorem not_blank_of_mem_asks (hq : q.subject ∈ env.refs) (hq' : q' ∈ (env.script q).asks) :
    (∀ r, r.node.text = "_" → q' ≠ .type r) ∧
      (q.subject.node.text ≠ "_" → q'.subject.node.text ≠ "_") := by
  obtain ⟨hmem, hcase⟩ := subject_of_mem_asks hclosed hindex hq hq'
  rcases hcase with ⟨heq, htype⟩ | hvalue
  · exact ⟨fun r _ => htype r, fun h => by rwa [heq]⟩
  · have hblank : q'.subject.node.text ≠ "_" := by
      intro hblank
      rw [hregular.blank q'.subject hmem hblank] at hvalue
      cases hvalue
    refine ⟨?_, fun _ => hblank⟩
    rintro r hr rfl
    exact hblank hr

theorem Waits.of_mem_asks (h : env.Waits A q) (hq : q.subject ∈ env.refs)
    (hq' : q' ∈ (env.script q).asks) : env.Waits A q' := by
  obtain ⟨htype, hsubject⟩ := not_blank_of_mem_asks hclosed hindex hregular hq hq'
  rcases h with hidle | h
  · rw [hidle] at hq'
    cases hq'
  · by_cases hidle : env.Idle q'
    · exact .inl hidle
    · refine .inr fun r hr hactive => ?_
      rcases h r hr hactive with ⟨hblank, _⟩ | ⟨hblank, hnone | hlead⟩
      · exact .inl ⟨hblank, htype r hblank⟩
      · exact .inr ⟨hsubject hblank, .inl hnone⟩
      · refine .inr ⟨hsubject hblank, ?_⟩
        rcases cases_of_mem_asks hclosed hregular hq hblank hq' with h | h | h
        · exact absurd h hidle
        · exact .inl (right_none_of_transGen hlead h)
        · exact .inr (hlead.trans h)

/-- While a type is being looked for, the questions it leads to may be asked. -/
theorem Waits.of_mem_asks_type {r : Ref} (h : env.Waits A (.type r)) (hr : r ∈ env.refs)
    (hq' : q' ∈ (env.script (.type r)).asks) : env.Waits (r.id :: A) q' := by
  obtain ⟨htype, hsubject⟩ := not_blank_of_mem_asks hclosed hindex hregular (q := .type r) hr hq'
  rcases h.of_mem_asks hclosed hindex hregular hr hq' with hidle | hrest
  · exact .inl hidle
  · by_cases hidle : env.Idle q'
    · exact .inl hidle
    · refine .inr fun r' hr' hactive => ?_
      rcases List.mem_cons.mp hactive with hid | hactive
      · rcases eq_or_idle_of_id_eq hregular.parsed hr' hr hid with rfl | ⟨_, hidle'⟩
        · by_cases hblank : r'.node.text = "_"
          · exact .inl ⟨hblank, htype r' hblank⟩
          · refine .inr ⟨hsubject hblank, ?_⟩
            exact (cases_of_mem_asks hclosed hregular (q := .type r') hr hblank hq').resolve_left
              hidle
        · rw [hidle'] at hq'
          cases hq'
      · exact hrest r' hr' hactive

end

/-! ## Keeping to a contract -/

/-- What may be asked while the types of some nodes are being looked for, and what may be answered:
an answer along a script may be given if the answers it is made from may, and no answer is given for
a type that is being looked for. -/
structure Contract (env : Env) where
  /-- The question may be asked while the types of the nodes are being looked for. -/
  mayAsk : List NodeId → Question → Prop
  /-- The answer may be given to the question. -/
  right : Question → Option Ty → Prop
  mem : ∀ {A q}, mayAsk A q → q.subject ∈ env.refs
  asks : ∀ {A q q'}, mayAsk A q → q' ∈ (env.script q).asks → mayAsk A q'
  asks_type : ∀ {A r q'}, mayAsk A (.type r) → q' ∈ (env.script (.type r)).asks →
    mayAsk (r.id :: A) q'
  known : ∀ {q a}, (env.script q).outcome = .known a → right q a
  follow : ∀ {q q' f a}, (env.script q).outcome = .follow q' f → right q' a → right q (a.bind f)
  active : ∀ {A r}, mayAsk A (.type r) → r.id ∈ A → right (.type r) none
  same : ∀ {r r' a}, r ∈ env.refs → r' ∈ env.refs → r.id = r'.id → right (.type r) a →
    right (.type r') a

namespace Contract

variable {C : Contract env} {o : Oracle} {m m' : Memo}

/-- The answers that the memo has may be given. -/
def Kept (C : Contract env) (m : Memo) : Prop :=
  ∀ r ∈ env.refs, ∀ a, m.answers.lookup r.id = some a → C.right (.type r) a

/-- From a memo with answers that may be given, the oracle gives such an answer and leaves such a
memo. -/
def KeptBy (C : Contract env) (o : Oracle) : Prop :=
  ∀ q m a m', C.mayAsk m.active q → C.Kept m → o.ask q m = some (a, m') →
    C.right q a ∧ C.Kept m' ∧ m'.active = m.active

theorem KeptBy.askAll (ho : C.KeptBy o) {qs : List Question}
    (hqs : ∀ q ∈ qs, C.mayAsk m.active q) (hm : C.Kept m) {u : Unit}
    (h : o.askAll qs m = some (u, m')) : C.Kept m' ∧ m'.active = m.active := by
  induction qs generalizing m with
  | nil =>
    cases h
    exact ⟨hm, rfl⟩
  | cons q qs ih =>
    obtain ⟨b, m₁, hq, hrest⟩ := Resolving.bind_eq_some.mp h
    obtain ⟨_, hm₁, hactive⟩ := ho q m b m₁ (hqs q List.mem_cons_self) hm hq
    rw [← hactive]
    refine ih ?_ hm₁ hrest
    rw [hactive]
    exact fun q' hq' => hqs q' (List.mem_cons_of_mem q hq')

/-- The answer along a script may be given if every question of it may be asked. -/
theorem KeptBy.run (ho : C.KeptBy o) (hasks : ∀ q' ∈ (env.script q).asks, C.mayAsk m.active q')
    (hm : C.Kept m) (h : (env.script q).run o m = some (a, m')) :
    C.right q a ∧ C.Kept m' ∧ m'.active = m.active := by
  obtain ⟨u, m₁, hbefore, hsettle⟩ := Resolving.bind_eq_some.mp h
  obtain ⟨hm₁, hactive₁⟩ :=
    ho.askAll (fun q' hq' => hasks q' (Script.mem_asks.mpr (.inl hq'))) hm hbefore
  cases houtcome : (env.script q).outcome with
  | known t =>
    rw [houtcome] at hsettle
    cases hsettle
    exact ⟨C.known houtcome, hm₁, hactive₁⟩
  | follow q' f =>
    rw [houtcome] at hsettle
    obtain ⟨b, _, hq', hb⟩ := Resolving.bind_eq_some.mp hsettle
    cases hb
    have hmay := hasks q' (Script.mem_asks.mpr (.inr (by rw [houtcome]; rfl)))
    rw [← hactive₁] at hmay
    obtain ⟨hb, hm', hactive⟩ := ho q' m₁ b m' hmay hm₁ hq'
    exact ⟨C.follow houtcome hb, hm', hactive.trans hactive₁⟩

theorem Kept.cons (hm : C.Kept m) {r : Ref} (hr : r ∈ env.refs) (ha : C.right (.type r) a)
    (A : List NodeId) : C.Kept ⟨(r.id, a) :: m.answers, A⟩ := by
  intro r' hr' b hb
  by_cases hid : r'.id = r.id
  · rw [hid, List.lookup_cons_self] at hb
    cases hb
    exact C.same hr hr' hid.symm ha
  · rw [List.lookup_cons, beq_false_of_ne hid] at hb
    exact hm r' hr' b hb

theorem KeptBy.typeOfWith (ho : C.KeptBy o) (hsees : o.Sees env) {r : Ref}
    (hmay : C.mayAsk m.active (.type r)) (hm : C.Kept m)
    (h : env.typeOfWith o r m = some (a, m')) :
    C.right (.type r) a ∧ C.Kept m' ∧ m'.active = m.active := by
  have hr : r ∈ env.refs := C.mem hmay
  cases hfound : m.answers.lookup r.id with
  | some answer =>
    rw [typeOfWith_of_answered hfound] at h
    cases h
    exact ⟨hm r hr a hfound, hm, rfl⟩
  | none =>
    by_cases hactive : r.id ∈ m.active
    · rw [typeOfWith_of_active hfound hactive] at h
      cases h
      exact ⟨C.active hmay hactive, hm, rfl⟩
    · rw [typeOfWith_of_fresh hfound hactive, Option.map_eq_some_iff] at h
      obtain ⟨⟨b, m₁⟩, hrun, heq⟩ := h
      cases heq
      rw [freshType_eq hsees] at hrun
      -- the type is being looked for while its script is followed
      have hm' : C.Kept { m with active := r.id :: m.active } := hm
      obtain ⟨hb, hm₁, hactive₁⟩ :=
        ho.run (q := .type r) (fun q' hq' => C.asks_type hmay hq') hm' hrun
      refine ⟨hb, hm₁.cons hr hb _, ?_⟩
      rw [hactive₁, List.erase_cons_head]

end Contract

theorem ask_zero (q : Question) (m : Memo) : (env.oracle 0).ask q m = none := by
  cases q with
  | type r => rfl
  | name r => rfl
  | result call i => rfl

/-- Every contract is kept. -/
theorem Contract.keptBy_oracle (C : Contract env) (hindex : env.Listed) (d : Nat) :
    C.KeptBy (env.oracle d) := by
  induction d with
  | zero =>
    intro q m a m' _ _ h
    rw [ask_zero] at h
    cases h
  | succ d ih =>
    intro q m a m' hmay hm h
    by_cases htype : ∃ r, q = .type r
    · obtain ⟨r, rfl⟩ := htype
      exact ih.typeOfWith (sees_oracle hindex d) hmay hm h
    · rw [ask_succ hindex d q fun r hr => htype ⟨r, hr⟩] at h
      exact ih.run (fun q' hq' => C.asks hmay hq') hm h

/-! ## Every answer is right -/

/-- In a regular package, what may be asked is answered with what it stands for. -/
def answering (hclosed : env.Closed) (hindex : env.Listed) (hregular : env.Regular) :
    Contract env where
  mayAsk A q := q.subject ∈ env.refs ∧ env.Waits A q
  right := env.Right
  mem h := h.1
  asks h hq' := ⟨(subject_of_mem_asks hclosed hindex h.1 hq').1,
    h.2.of_mem_asks hclosed hindex hregular h.1 hq'⟩
  asks_type h hq' := ⟨(subject_of_mem_asks hclosed hindex h.1 hq').1,
    h.2.of_mem_asks_type hclosed hindex hregular h.1 hq'⟩
  known := right_known
  follow h ha := ha.follow h
  active h hactive := h.2.right_none h.1 hactive
  same hr hr' hid ha := right_of_id_eq hregular.parsed hr hr' hid ha

/-- In any package, a type that is answered is what the question stands for. -/
def meaning (hclosed : env.Closed) (hindex : env.Listed)
    (hparsed : ∀ f ∈ env.files, Code.parse? f.src = some f.root) : Contract env where
  mayAsk _ q := q.subject ∈ env.refs
  right q a := ∀ t, a = some t → env.Means q t
  mem h := h
  asks h hq' := (subject_of_mem_asks hclosed hindex h hq').1
  asks_type h hq' := (subject_of_mem_asks hclosed hindex h hq').1
  known h t ht := .known (by rw [h, ht])
  follow h ha t ht := by
    obtain ⟨t', ht', hf⟩ := Option.bind_eq_some_iff.mp ht
    exact .follow h (ha t' ht') hf
  active _ _ t ht := by cases ht
  same := by
    intro r r' a hr hr' hid ha t ht
    rcases eq_or_idle_of_id_eq hparsed hr hr' hid with rfl | ⟨hidle, _⟩
    · exact ha t ht
    · have hnone := right_known (congrArg Script.outcome hidle)
      cases (hnone t).mpr (ha t ht)

end Env

end CtxThread
