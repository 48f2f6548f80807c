import CtxThread.Code.Parse
import CtxThread.Proofs.Code.Rule

/-!
# Trees lie over the text they are parsed from

Every rule of the grammar is sound, so every node that parsing builds lies over the text: children
in a row inside their parents, brackets where blocks and lists begin and end, and names where
names are asked for.

## Main definitions

- `Grammar.kindsOf`: the kinds of the nodes that a nonterminal stands for

## Main statements

- `Grammar.grammar_sound`, `Grammar.grammar_yields`, `Grammar.grammar_lists`: the rules of the
  grammar are sound
- `parse?_laid`: the tree of a text lies over it
-/

namespace CtxThread.Code

namespace Rule

variable {ν : Type} {spec : ν → Kind → Prop} {K : Kind → Prop}

@[simp] theorem sound_chain (as : List (Rule ν)) :
    (chain as).Sound spec ↔ ∀ a ∈ as, a.Sound spec := by
  fun_induction chain as with
  | case1 => simp
  | case2 a => simp
  | case3 a as _ ih => simp [ih]

@[simp] theorem sound_choice (as : List (Rule ν)) :
    (choice as).Sound spec ↔ ∀ a ∈ as, a.Sound spec := by
  fun_induction choice as with
  | case1 => simp
  | case2 a => simp
  | case3 a as _ ih => simp [ih]

@[simp] theorem sound_opt (a : Rule ν) : (opt a).Sound spec ↔ a.Sound spec := by
  simp [opt]

@[simp] theorem sound_sign (s : Sign) : (sign s : Rule ν).Sound spec := trivial

@[simp] theorem sound_signs (ss : List Sign) : (signs ss : Rule ν).Sound spec := by
  rw [signs, sound_choice]
  intro a ha
  obtain ⟨s, _, rfl⟩ := List.mem_map.mp ha
  exact sound_sign s

@[simp] theorem sound_list (a : Rule ν) : (list a).Sound spec ↔ a.Sound spec := by
  simp [list]

@[simp] theorem sound_commaList (a : Rule ν) : (commaList a).Sound spec ↔ a.Sound spec := by
  simp [commaList]

@[simp] theorem sound_ending : (ending : Rule ν).Sound spec := by
  simp [ending]

@[simp] theorem yields_true (a : Rule ν) : a.Yields spec fun _ => True := by
  induction a with
  | seq a b iha ihb | alt a b iha ihb => exact ⟨iha, ihb⟩
  | many a ih | group a ih | role r a ih => exact ih
  | call n => exact fun _ _ => trivial
  | _ => exact trivial

/-- Anything can be the children of a node of a plain kind. -/
@[simp] theorem fills_of_isPlain {k : Kind} (hk : k.isPlain = true) (hfield : k ≠ .fieldIdentifier)
    (a : Rule ν) : a.Fills spec k := by
  simp only [Kind.isPlain, ne_eq, Bool.and_eq_true, decide_eq_true_eq] at hk
  refine ⟨by simp [hk], hfield, ?_, ?_, ?_⟩
  · rintro (rfl | rfl) <;> simp at hk
  · rintro (rfl | rfl) <;> simp at hk
  · intro hdecl
    rcases Kind.isFuncDecl_iff.mp hdecl with rfl | rfl <;> simp at hk

end Rule

namespace Grammar

open Rule

/-- The kinds of the nodes that a nonterminal stands for, where a later stage relies on them. -/
def kindsOf : Nonterminal → Kind → Prop
  | .parameterList, k => k = .parameterList
  | .literalValue, k => k = .literalValue
  | .block, k => k = .block
  | _, _ => True

/-- A rule of the grammar that builds nodes which have their shape. -/
abbrev IsSound (a : Production) : Prop := a.Sound kindsOf

@[simp] theorem yields_parameterList {K : Kind → Prop} :
    parameterList.Yields kindsOf K ↔ K .parameterList := by
  simp [parameterList, Yields, kindsOf]

@[simp] theorem yields_literalValue {K : Kind → Prop} :
    (.call .literalValue : Production).Yields kindsOf K ↔ K .literalValue := by
  simp [Yields, kindsOf]

@[simp] theorem yields_block {K : Kind → Prop} :
    (.call .block : Production).Yields kindsOf K ↔ K .block := by
  simp [Yields, kindsOf]

@[simp] theorem isSound_name {k : Kind} : IsSound (name k) ↔ k.isPlain = true := Iff.rfl

@[simp] theorem isSound_plainName {k : Kind} : IsSound (plainName k) ↔ k.isPlain = true :=
  ⟨fun h => h.1, fun h => ⟨h, h⟩⟩

@[simp] theorem isSound_here (lined : Bool) : IsSound (here lined) := by
  cases lined <;> exact trivial

@[simp] theorem isSound_hereSign (lined : Bool) (s : Sign) : IsSound (hereSign lined s) :=
  ⟨isSound_here lined, sound_sign s⟩

@[simp] theorem isSound_string : IsSound string := by
  simp [string, Terminal.Sound, Kind.isPlain, Kind.isNamed]

@[simp] theorem isSound_separated (a : Production) : IsSound (separated a) ↔ IsSound a := by
  simp [separated]

/-- The rule of a list in parentheses may build a node that has to be in parentheses. -/
theorem isSound_parens {k : Kind} (hk : k = .parameterList ∨ k = .argumentList)
    {a b : Production} (ha : IsSound a) (hb : IsSound b) (hopens : a.Opens .lparen)
    (hb' : b.Appends) : IsSound (.node k (chain [a, b, sign .rparen])) := by
  refine ⟨by simp [ha, hb], ?_, ?_, ?_, ?_, ?_⟩
  · rcases hk with rfl | rfl <;> rfl
  · rcases hk with rfl | rfl <;> decide
  · rcases hk with rfl | rfl <;> rintro (h | h) <;> cases h
  · intro _
    exact ⟨.inr ⟨hopens, hb', trivial⟩, rfl⟩
  · rcases hk with rfl | rfl <;> intro h <;> cases h

/-- The rule of what stands in braces may build a node that has to be in braces. -/
theorem isSound_braces {k : Kind} (hk : k = .block ∨ k = .literalValue) {a : Production}
    (ha : IsSound a) (ha' : a.Appends) :
    IsSound (.node k (chain [sign .lbrace, a, sign .rbrace])) := by
  refine ⟨by simp [ha], ?_, ?_, ?_, ?_, ?_⟩
  · rcases hk with rfl | rfl <;> rfl
  · rcases hk with rfl | rfl <;> decide
  · intro _
    exact ⟨.inr ⟨rfl, ha', trivial⟩, rfl⟩
  · rcases hk with rfl | rfl <;> rintro (h | h) <;> cases h
  · rcases hk with rfl | rfl <;> intro h <;> cases h

theorem opens_hereSign (lined : Bool) (s : Sign) : (hereSign lined s).Opens s := by
  cases lined <;> exact .inl ⟨trivial, rfl⟩

/-! ## Types -/

@[simp] theorem isSound_result (lined : Bool) : IsSound (result lined) := by
  simp [result, parameterList, Role.admits]

@[simp] theorem isSound_parameterList : IsSound parameterList := trivial

@[simp] theorem isSound_union (lined : Bool) : IsSound (union lined) := by
  simp [union, unionMember, type, Kind.isPlain, Kind.isNamed]

@[simp] theorem isSound_typeElem (lined : Bool) : IsSound (typeElem lined) := by
  simp [typeElem, Kind.isPlain, Kind.isNamed]

@[simp] theorem isSound_typeArguments : IsSound typeArguments := by
  simp [typeArguments, Kind.isPlain, Kind.isNamed]

@[simp] theorem isSound_instantiate (lined : Bool) : IsSound (instantiate lined) := by
  simp [instantiate, Kind.isPlain, Kind.isNamed, Role.admits]

section TypeName

variable (word : Kind → Production) (hword : ∀ k, k.isPlain = true → IsSound (word k))

include hword

theorem isSound_qualifiedType (lined : Bool) : IsSound (qualifiedType word lined) := by
  have h := hword .packageIdentifier rfl
  simp [qualifiedType, Kind.isPlain, Kind.isNamed, Role.admits, h]

theorem isSound_plainTypeName (lined : Bool) : IsSound (plainTypeName word lined) :=
  ⟨isSound_qualifiedType word hword lined, hword .typeIdentifier rfl⟩

theorem isSound_typeName (lined : Bool) : IsSound (typeName word lined) := by
  have h := isSound_plainTypeName word hword lined
  simp [typeName, h]

end TypeName

@[simp] theorem isSound_sliceType (lined : Bool) : IsSound (sliceType lined) := by
  simp [sliceType, type, Kind.isPlain, Kind.isNamed, Role.admits]

@[simp] theorem isSound_arrayType (lined : Bool) : IsSound (arrayType lined) := by
  simp [arrayType, type, expr, Kind.isPlain, Kind.isNamed, Role.admits]

@[simp] theorem isSound_mapType (lined : Bool) : IsSound (mapType lined) := by
  simp [mapType, type, Kind.isPlain, Kind.isNamed, Role.admits]

@[simp] theorem isSound_channelType (lined : Bool) : IsSound (channelType lined) := by
  simp [channelType, type, Kind.isPlain, Kind.isNamed, Role.admits]

@[simp] theorem isSound_fieldName : IsSound fieldName := by
  simp [fieldName, Kind.isPlain, Kind.isNamed, Role.admits]

@[simp] theorem isSound_variableName : IsSound variableName := by
  simp [variableName, Kind.isPlain, Kind.isNamed, Role.admits]

@[simp] theorem isSound_structType : IsSound structType := by
  have h := isSound_typeName name (fun k hk => hk) true
  simp [structType, fieldDeclaration, embeddedField, fieldTag, type, Kind.isPlain, Kind.isNamed,
    Role.admits, h]

@[simp] theorem isSound_interfaceType : IsSound interfaceType := by
  simp [interfaceType, interfaceElem, Kind.isPlain, Kind.isNamed, Role.admits]

@[simp] theorem isSound_parenthesizedType : IsSound parenthesizedType := by
  simp [parenthesizedType, type, Kind.isPlain, Kind.isNamed]

theorem isSound_simpleTypeRule (lined : Bool) : IsSound (simpleTypeRule lined) := by
  have h := isSound_typeName name (fun k hk => hk) lined
  simp [simpleTypeRule, pointerType, functionType, type, Kind.isPlain, Kind.isNamed, Role.admits, h]

theorem appends_parameters : (opt (commaList parameter)).Appends := by
  simp [opt, commaList, list, parameter, choice, Appends, sign]

theorem isSound_parameterListRule : IsSound parameterListRule := by
  have h : IsSound parameter := by
    simp [parameter, type, Kind.isPlain, Kind.isNamed, Role.admits]
  exact isSound_parens (.inl rfl) (sound_sign _) (by simp [h]) rfl appends_parameters

@[simp] theorem isSound_typeParameterList : IsSound typeParameterList := by
  simp [typeParameterList, Kind.isPlain, Kind.isNamed, Role.admits]

/-! ## Expressions -/

@[simp] theorem isSound_expressionList (p : Place) : IsSound (expressionList p) := by
  simp [expressionList, expr, Kind.isPlain, Kind.isNamed]

theorem isSound_tierRule (p : Place) (n : Nat) : IsSound (tierRule p n) := by
  unfold tierRule
  split
  · exact trivial
  · simp [Kind.isPlain, Kind.isNamed, Role.admits]

theorem isSound_unaryRule (p : Place) : IsSound (unaryRule p) := by
  simp [unaryRule, Kind.isPlain, Kind.isNamed, Role.admits]

@[simp] theorem isSound_argumentList (lined : Bool) : IsSound (argumentList lined) := by
  refine ⟨isSound_parens (.inr rfl) (by simp) ?_ (opens_hereSign lined _) ?_, rfl⟩
  · simp [argument, expr, Kind.isPlain, Kind.isNamed]
  · simp [opt, commaList, list, argument, Appends, sign]

@[simp] theorem isSound_allocationArguments (lined : Bool) :
    IsSound (allocationArguments lined) := by
  refine ⟨isSound_parens (.inr rfl) (by simp) ?_ (opens_hereSign lined _) ?_, rfl⟩
  · simp [type, expr]
  · simp [opt, chain, type, expr, Appends, sign]

theorem isSound_literalValueRule : IsSound literalValueRule := by
  refine isSound_braces (.inr rfl) ?_ ?_
  · simp [literalElement, expr, Kind.isPlain, Kind.isNamed, Role.admits]
  · simp [opt, commaList, list, Appends, sign]

@[simp] theorem isSound_compose : IsSound compose := by
  simp [compose, Kind.isPlain, Kind.isNamed, Role.admits]

@[simp] theorem isSound_convert : IsSound convert := by
  simp [convert, expr, Kind.isPlain, Kind.isNamed, Role.admits]

@[simp] theorem isSound_instantiateAlone (lined : Bool) : IsSound (instantiateAlone lined) := by
  simp [instantiateAlone, type, expr, Kind.isPlain, Kind.isNamed, Role.admits]

theorem isSound_nameOperand (p : Place) : IsSound (nameOperand p) := by
  have hname : ∀ k : Kind, k.isPlain = true → IsSound (plainName k) := fun k hk => ⟨hk, hk⟩
  have hplain := isSound_plainTypeName plainName hname p.lined
  have hqualified := isSound_qualifiedType plainName hname p.lined
  unfold nameOperand
  split <;> simp [hplain, hqualified, Terminal.Sound, Kind.isPlain, Kind.isNamed, Role.admits]

theorem isSound_primaryRule (p : Place) : IsSound (primaryRule p) := by
  have hoperand := isSound_nameOperand p
  have hliteral : IsSound basicLiteral := by
    simp [basicLiteral, Terminal.Sound, Kind.isPlain, Kind.isNamed]
  have hparens : IsSound parenthesizedOperand := by
    simp [parenthesizedOperand, expr, Kind.isPlain, Kind.isNamed]
  have hfunc : IsSound funcLiteral := by
    simp [funcLiteral, Kind.isPlain, Kind.isNamed, Role.admits]
  have htype : IsSound typeOperand := by
    simp [typeOperand, implicitArrayType, functionType, type, Kind.isPlain, Kind.isNamed,
      Role.admits]
  have hcontinuation : IsSound (continuation p) := by
    simp [continuation, expr, type, Yields, Terminal.kind, Kind.isPlain, Kind.isNamed, name,
      Terminal.Sound, Role.admits]
  simp [primaryRule, hoperand, hliteral, hparens, hfunc, htype, hcontinuation]

/-! ## Statements -/

@[simp] theorem isSound_bindLeft (lined : Bool) (q : Place) : IsSound (bindLeft lined q) := by
  simp [bindLeft, Kind.isPlain, Kind.isNamed, Role.admits]

theorem isSound_simpleRule (p q : Place) : IsSound (simpleRule p q) := by
  simp [simpleRule, expr, Kind.isPlain, Kind.isNamed, Role.admits]

@[simp] theorem isSound_label : IsSound label := by
  simp [label, Kind.isPlain, Kind.isNamed, Role.admits]

@[simp] theorem isSound_varDeclaration (p : Place) : IsSound (varDeclaration p) := by
  simp [varDeclaration, type, Kind.isPlain, Kind.isNamed, Role.admits]

@[simp] theorem isSound_simpleStatement (p : Place) : IsSound (simpleStatement p) := by
  simp [simpleStatement]

@[simp] theorem isSound_statementList : IsSound statementList := by
  simp [statementList, bareLabel, block, Kind.isPlain, Kind.isNamed]

theorem isSound_blockRule : IsSound blockRule :=
  isSound_braces (.inl rfl) (by simp) ⟨trivial, trivial⟩

@[simp] theorem isSound_initializer : IsSound initializer := by
  simp [initializer, Role.admits]

theorem isSound_ifStatementRule : IsSound ifStatementRule := by
  simp [ifStatementRule, expr, block, Kind.isPlain, Kind.isNamed, Role.admits]

@[simp] theorem isSound_leftSide (p : Place) : IsSound (leftSide p) := by
  simp [leftSide, Role.admits]

@[simp] theorem isSound_forStatement : IsSound forStatement := by
  simp [forStatement, rangeClause, forClause, expr, block, Kind.isPlain, Kind.isNamed,
    Role.admits]

@[simp] theorem isSound_caseBody : IsSound caseBody := by
  simp [caseBody]

@[simp] theorem isSound_cases {one : Production} : IsSound (cases one) ↔ IsSound one := by
  simp [cases, defaultCase, Kind.isPlain, Kind.isNamed]

@[simp] theorem isSound_switchStatement : IsSound switchStatement := by
  simp [switchStatement, typeSwitch, expressionSwitch, expr, type, Kind.isPlain, Kind.isNamed,
    Role.admits]

@[simp] theorem isSound_selectStatement : IsSound selectStatement := by
  simp [selectStatement, communication, expr, Kind.isPlain, Kind.isNamed, Role.admits]

@[simp] theorem isSound_keywordStatement : IsSound keywordStatement := by
  simp [keywordStatement, jump, expr, Kind.isPlain, Kind.isNamed]

/-! ## Declarations -/

@[simp] theorem isSound_constDeclaration : IsSound constDeclaration := by
  simp [constDeclaration, constSpec, initialValue, type, Kind.isPlain, Kind.isNamed, Role.admits]

@[simp] theorem isSound_typeDeclaration : IsSound typeDeclaration := by
  simp [typeDeclaration, typeSpec, type, Kind.isPlain, Kind.isNamed, Role.admits]

@[simp] theorem isSound_resultAndBody : IsSound resultAndBody := by
  simp [resultAndBody, block, Role.admits]

/-- The rule of a declaration of a function or a method builds a node that has parameters. -/
theorem isSound_funcDecl {k : Kind} (hk : k.isFuncDecl = true) {a b c : Production}
    (ha : IsSound a) (hb : IsSound b) (hc : IsSound c) :
    IsSound (.node k (chain [a, b, c, .role .parameters parameterList, resultAndBody])) := by
  have happends : resultAndBody.Appends := by
    simp [resultAndBody, opt, result, Appends]
  refine ⟨by simp [ha, hb, hc, Role.admits], ?_, ?_, ?_, ?_, ?_⟩
  · rcases Kind.isFuncDecl_iff.mp hk with rfl | rfl <;> rfl
  · rcases Kind.isFuncDecl_iff.mp hk with rfl | rfl <;> decide
  · rintro (rfl | rfl) <;> cases hk
  · rintro (rfl | rfl) <;> cases hk
  · exact fun _ => .inr (.inr (.inr (.inl ⟨⟨rfl, fun _ h => h⟩, happends⟩)))

theorem isSound_statementRule : IsSound statementRule := by
  simp [statementRule, block, Kind.isPlain, Kind.isNamed]

theorem isSound_topRule : IsSound topRule := by
  have hfunction : IsSound functionDeclaration :=
    isSound_funcDecl rfl (sound_sign _) isSound_variableName (by simp)
  have hmethod : IsSound methodDeclaration :=
    isSound_funcDecl rfl (sound_sign _) (by simp [Role.admits]) isSound_fieldName
  have himport : IsSound importDeclaration := by
    simp [importDeclaration, importSpec, Terminal.Sound, Kind.isPlain, Kind.isNamed, Role.admits]
  have hpackage : IsSound packageClause := by
    simp [packageClause, Kind.isPlain, Kind.isNamed]
  simp [topRule, hfunction, hmethod, himport, hpackage]

theorem isSound_sourceFileRule : IsSound sourceFileRule := by
  simp [sourceFileRule]

/-! ## The grammar -/

theorem grammar_sound (n : Nonterminal) : (grammar n).Sound kindsOf := by
  cases n with
  | type lined => exact ⟨trivial, isSound_parenthesizedType⟩
  | simpleType lined => exact isSound_simpleTypeRule lined
  | parameterList => exact isSound_parameterListRule
  | tier p n => exact isSound_tierRule p n
  | unary p => exact isSound_unaryRule p
  | primary p => exact isSound_primaryRule p
  | literalValue => exact isSound_literalValueRule
  | block => exact isSound_blockRule
  | statement => exact isSound_statementRule
  | simple p q => exact isSound_simpleRule p q
  | ifStatement => exact isSound_ifStatementRule
  | top => exact isSound_topRule
  | sourceFile => exact isSound_sourceFileRule

theorem grammar_yields (n : Nonterminal) : (grammar n).Yields kindsOf (kindsOf n) := by
  cases n with
  | parameterList | literalValue | block => exact rfl
  | _ => exact yields_true _

/-- Only the rule for lists of parameters is asked to build one. -/
theorem grammar_lists (n : Nonterminal) (h : IsList kindsOf n) : (grammar n).ListRule := by
  cases n with
  | parameterList => exact ⟨_, rfl, .inr ⟨rfl, appends_parameters, trivial⟩⟩
  | literalValue => cases h .literalValue rfl
  | block => cases h .block rfl
  | _ => cases h .block trivial

end Grammar

theorem kind_of_parse? {src : Bytes} {t : Tree} (h : parse? src = some t) :
    t.kind = .sourceFile := by
  obtain ⟨s, _, hrest⟩ := Option.bind_eq_some_iff.mp h
  simp only [Option.ite_none_right_eq_some, Option.some.injEq] at hrest
  rw [← hrest.2]
  rfl

/-- The tree of a text lies over it. -/
theorem parse?_laid {src : Bytes} {t : Tree} (h : parse? src = some t) : t.Laid src := by
  obtain ⟨s, hs, hrest⟩ := Option.bind_eq_some_iff.mp h
  have hgood := Rule.derive_good Grammar.grammar_yields Grammar.grammar_lists
    Grammar.grammar_sound _ _ _ _ _ (Token.scan_stream src) hs
  obtain ⟨mid, hrow, hlaid, hleft⟩ := hgood.skipBlanks
  generalize Rule.skipBlanks s.out s.rest = m at hrest hrow hlaid hleft
  simp only [Option.ite_none_right_eq_some, Option.some.injEq] at hrest
  obtain ⟨_, rfl⟩ := hrest
  have hspan : Row (fileTree src.length m.out).start m.out src.length := by
    cases hout : m.out with
    | nil => exact le_rfl
    | cons a as =>
      rw [hout] at hrow
      exact hrow.head.mono le_rfl hleft.le_length
  refine .node _ le_rfl (hspan.sublist List.filter_sublist) (.inl rfl) ?_ ?_
  · exact Rule.shaped_of_isPlain rfl (by decide) _ _ _
  · intro c hc
    exact hlaid c (List.mem_filter.mp hc).1

end CtxThread.Code
