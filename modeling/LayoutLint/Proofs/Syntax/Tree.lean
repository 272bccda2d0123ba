import LayoutLint.Proofs.Syntax.Shapes
/-!
# Tree — documents that say the same have the same syntax tree

With the searches of types, attributes and scopes alike, so are the families of shapes that recognition finds one after
another, and the tree made of them (`SameWords.tree`). Trivia is no part of any of it.
-/
namespace LayoutLint

namespace Outline.Same

variable {o o' : Outline} (h : o.Same o')
include h

/-! ### Declarations -/

theorem nameBefore? (i : Nat) : o'.nameBefore? i = o.nameBefore? i := by
  simp only [Outline.nameBefore?, h.typeArgsStart?, h.isName]

theorem attributesBefore (names : Nat → Option (List String)) (i : Nat) :
    o'.attributesBefore names i = o.attributesBefore names i := by
  have hop := h.opening?
  fun_induction Outline.attributesBefore o names i
  all_goals
    rw [Outline.attributesBefore.eq_def o']
    simp only [h.isModifier, *, dite_true, dite_false, if_true, if_false, Bool.false_eq_true]
  all_goals split <;> simp_all

theorem startsWithThis (i : Nat) : o'.startsWithThis i = o.startsWithThis i := by
  have hc := h.closing?
  fun_induction Outline.startsWithThis o i
  all_goals
    rw [Outline.startsWithThis.eq_def o']
    simp (disch := decide) only [h.size, h.isAt, h.isKeyword, *, dite_true, dite_false, Bool.false_eq_true]
  all_goals split <;> simp_all

theorem methodBody? (i : Nat) : o'.methodBody? i = o.methodBody? i := by
  simp (disch := decide) only [Outline.methodBody?, h.walk, h.isAt, h.closing?, h.expressionEnd]

theorem isConstructor (s : Scopes) {name : Nat} (hn : o.isName name = true) (after : Nat) :
    o'.isConstructor s name after = o.isConstructor s name after := by
  simp (disch := decide) only [Outline.isConstructor, h.inTypeBody, h.containerOf?, h.word_of_isName hn, h.isModifier,
    h.isOneOf]

omit h in
theorem isName_of_nameBefore? {i name : Nat} (hn : o.nameBefore? i = some name) : o.isName name = true := by
  unfold Outline.nameBefore? at hn
  split at hn
  · split at hn
    · rename_i hc
      cases hn
      exact (Bool.and_eq_true_iff.1 hc).2
    · cases hn
  · split at hn
    · cases hn
      assumption
    · cases hn

theorem declarationAt? (s : Scopes) (names : Nat → Option (List String)) (i : Nat) :
    o'.declarationAt? s names i = o.declarationAt? s names i := by
  rw [Outline.declarationAt?, Outline.declarationAt?, h.isKeyword (by decide), h.nameBefore?]
  split
  · rfl
  · cases hn : o.nameBefore? (i - 1) with
    | none => rfl
    | some name =>
      simp (disch := decide) only [Option.bind_eq_bind, Option.bind_some, h.closing?,
        h.isConstructor s (isName_of_nameBefore? hn), h.isTypeEnd, h.isOneOf, h.typeStart?, h.isKeyword, h.inTypeBody,
        h.attributesBefore, h.startsWithThis, h.containerOf?, h.methodBody?]

theorem declarations (s : Scopes) (names : Nat → Option (List String)) (claimed : TokenSet) :
    o'.declarations s names claimed = o.declarations s names claimed := by
  simp (disch := decide) only [Outline.declarations, h.ids, h.isAt, h.declarationAt?]

/-! ### Calls and casts -/

theorem inConstraint (i : Nat) : o'.inConstraint i = o.inConstraint i := by
  induction i with
  | zero => rfl
  | succ i ih => simp (disch := decide) only [Outline.inConstraint, h.isAt, h.isIdentifier, h.isOneOf, ih]

theorem takesOperand (i : Nat) : o'.takesOperand i = o.takesOperand i := by
  simp (disch := decide) only [Outline.takesOperand, Outline.isNewConstraint, h.kind, h.isOneOf, h.isAt, h.inConstraint]

theorem keywordExpressions (claimed : TokenSet) : o'.keywordExpressions claimed = o.keywordExpressions claimed := by
  simp (disch := decide) only [Outline.keywordExpressions, h.ids, h.isAt, h.takesOperand]

theorem objectCreations (claimed : TokenSet) : o'.objectCreations claimed = o.objectCreations claimed := by
  simp (disch := decide) only [Outline.objectCreations, h.ids, h.isKeyword, h.isOneOf, h.typeNameEnd?, h.isAt]

theorem creationStart (first : Nat) : o'.creationStart first = o.creationStart first := by
  rw [Outline.creationStart, Outline.creationStart, h.isKeyword (by decide)]

theorem receiverStepFrom (first : Nat) : o'.receiverStepFrom first = o.receiverStepFrom first := by
  rw [Outline.receiverStepFrom, Outline.receiverStepFrom, h.creationStart, h.isAt (by decide)]

theorem receiverStep? (i : Nat) : o'.receiverStep? i = o.receiverStep? i := by
  simp (disch := decide) only [Outline.receiverStep?, h.receiverStepFrom, h.isAt, h.isOneOf, h.opening?,
    h.isPostfixTarget, h.typeArgsStart?, h.isPrimary]

theorem receiverStart? (i : Nat) : o'.receiverStart? i = o.receiverStart? i := by
  have hs := h.receiverStep?
  fun_induction Outline.receiverStart? o i
  all_goals
    rw [Outline.receiverStart?.eq_def o']
    split <;> simp_all

theorem invocationAt (declared : TokenSet) (i : Nat) : o'.invocationAt declared i = o.invocationAt declared i := by
  simp (disch := decide) only [Outline.invocationAt, h.nameBefore?, h.isOneOf, h.isAt, h.receiverStart?, h.closing?]

theorem invocations (declared claimed : TokenSet) :
    o'.invocations declared claimed = o.invocations declared claimed := by
  simp (disch := decide) only [Outline.invocations, h.ids, h.isAt, h.invocationAt]

theorem canOpenCast (i : Nat) : o'.canOpenCast i = o.canOpenCast i := by
  simp (disch := decide) only [Outline.canOpenCast, h.isName, h.isOneOf, h.closesTypeArgs]

theorem startsOperand (i : Nat) (predefined : Bool) : o'.startsOperand i predefined = o.startsOperand i predefined := by
  simp (disch := decide) only [Outline.startsOperand, h.kind, h.isOneOf, h.isPredefined]

theorem castAt? (i : Nat) : o'.castAt? i = o.castAt? i := by
  simp only [Outline.castAt?, h.closing?, h.castTypeEnd?, h.isPredefined, h.startsOperand]

theorem casts (claimed : TokenSet) : o'.casts claimed = o.casts claimed := by
  simp (disch := decide) only [Outline.casts, h.ids, h.isAt, h.canOpenCast, h.castAt?]

/-! ### Operators -/

theorem isNullableMark (declared : TokenSet) (i : Nat) :
    o'.isNullableMark declared i = o.isNullableMark declared i := by
  simp (disch := decide) only [Outline.isNullableMark, h.isPredefined, h.closesTypeArgs, h.isIdentifier, h.isOneOf]

theorem dotRole (inDirective : Bool) (before : Option OperatorRole) (i : Nat) :
    o'.dotRole inDirective before i = o.dotRole inDirective before i := by
  simp (disch := decide) only [Outline.dotRole, h.isOperandEnd, h.isPredefined, h.closesTypeArgs, h.isIdentifier,
    h.isAt]

theorem readOperator (s : Scopes) (declared : TokenSet) (scan : OperatorScan) (i : Nat) :
    scan.readOperator o' s declared i = scan.readOperator o s declared i := by
  have hb : o'.isOneOf i binaryOperators = o.isOneOf i binaryOperators := h.isOneOf (by decide) i
  rw [OperatorScan.readOperator, OperatorScan.readOperator, hb, h.isTypeArgBracket, h.isAt (by decide),
    h.isOneOf (by decide), h.isOperandEnd, h.isNullableMark, h.isAt (w := ":") (by decide),
    h.isAt (w := ".") (by decide), h.dotRole, h.isAt (w := "??") (by decide),
    h.isKeyword (w := "is") (by decide), h.isKeyword (w := "case") (by decide),
    h.isOneOf (l := ["and", "or"]) (by decide), h.isIdentifier, h.isPredefined]

theorem operatorStep (s : Scopes) (declared : TokenSet) (scan : OperatorScan) (i : Nat) :
    scan.step o' s declared i = scan.step o s declared i := by
  rw [OperatorScan.step, OperatorScan.step, h.isOneOf (by decide), h.isOneOf (l := [")", "]", "\x7d"]) (by decide),
    h.isAt (by decide), h.isOneOf (l := [",", "=>", "&&", "||", ":"]) (by decide)]
  simp only [h.readOperator]

theorem operatorRoles (s : Scopes) (declared : TokenSet) :
    o'.operatorRoles s declared = o.operatorRoles s declared := by
  have hstep : OperatorScan.step o' s declared = OperatorScan.step o s declared :=
    funext fun scan => funext fun i => h.operatorStep s declared scan i
  rw [Outline.operatorRoles, Outline.operatorRoles, h.ids, hstep]

/-! ### Statements -/

theorem catchBody? (i : Nat) : o'.catchBody? i = o.catchBody? i := by
  simp (disch := decide) only [Outline.catchBody?, h.afterParens?, h.isAt]

theorem handlersEnd? (i : Nat) : o'.handlersEnd? i = o.handlersEnd? i := by
  have hb := h.catchBody?
  have hc := h.closing?
  fun_induction Outline.handlersEnd? o i
  all_goals
    rw [Outline.handlersEnd?.eq_def o']
    simp (disch := decide) only [h.isAt, h.closing?, *, dite_true, dite_false, if_true, if_false, Bool.false_eq_true]
  all_goals repeat' split
  all_goals simp_all

theorem statementEndWithin? (rounds s : Nat) : o'.statementEndWithin? rounds s = o.statementEndWithin? rounds s := by
  induction rounds generalizing s with
  | zero => rfl
  | succ rounds ih =>
    have hheads : o'.isOneOf s headedStatements = o.isOneOf s headedStatements := h.isOneOf (by decide) s
    have hhandlers : o'.handlersEnd? = o.handlersEnd? := funext h.handlersEnd?
    rw [Outline.statementEndWithin?, Outline.statementEndWithin?]
    simp (disch := decide) only [h.eof, h.lastReal, h.isAt, h.isKeyword, h.closing?, ih, h.kind, hheads, h.partner?,
      hhandlers, h.isOneOf, h.expressionEnd]

theorem statementEnd? (s : Nat) : o'.statementEnd? s = o.statementEnd? s := by
  rw [Outline.statementEnd?, Outline.statementEnd?, h.size, h.statementEndWithin?]

theorem usingHeads : o'.usingHeads = o.usingHeads := by
  simp (disch := decide) only [Outline.usingHeads, h.ids, h.isKeyword, h.isAt, h.closing?, h.eof]

theorem usingStatements? : o'.usingStatements? = o.usingStatements? := by
  simp (disch := decide) only [Outline.usingStatements?, h.usingHeads, h.statementEnd?, h.isAt]

theorem elseChainWithin? (rounds last : Nat) :
    o'.elseChainWithin? rounds last = o.elseChainWithin? rounds last := by
  induction rounds generalizing last with
  | zero => rfl
  | succ rounds ih =>
    rw [Outline.elseChainWithin?, Outline.elseChainWithin?]
    simp (disch := decide) only [h.isKeyword, h.isAt, h.closing?, h.statementEnd?, ih]

theorem unwrapParens (first stop : Nat) : o'.unwrapParens first stop = o.unwrapParens first stop := by
  fun_induction Outline.unwrapParens o first stop
  all_goals
    rw [Outline.unwrapParens.eq_def o']
    simp (disch := decide) only [h.isAt, h.closing?, *, if_true, if_false, Bool.false_eq_true]

theorem conditionStep (roles : Array (Option OperatorRole)) (scan : ConditionScan) (i : Nat) :
    scan.step o' roles i = scan.step o roles i := by
  have ha : o'.isOneOf i assignments = o.isOneOf i assignments := h.isOneOf (by decide) i
  rw [ConditionScan.step, ConditionScan.step, ha, h.isOneOf (by decide),
    h.isOneOf (l := [")", "]", "\x7d"]) (by decide), h.isAt (by decide), h.isAt (w := "&&") (by decide),
    h.isAt (w := "??") (by decide), h.isAt (w := "or") (by decide)]

theorem isDisjunction (roles : Array (Option OperatorRole)) (opening closing : Nat) :
    o'.isDisjunction roles opening closing = o.isDisjunction roles opening closing := by
  have hstep : ConditionScan.step o' roles = ConditionScan.step o roles :=
    funext fun scan => funext fun i => h.conditionStep roles scan i
  rw [Outline.isDisjunction, Outline.isDisjunction, h.unwrapParens, hstep]

theorem ifHeads : o'.ifHeads = o.ifHeads := by
  simp (disch := decide) only [Outline.ifHeads, h.ids, h.isKeyword, h.isAt, h.closing?, h.eof]

theorem ifStatements? (roles : Array (Option OperatorRole)) : o'.ifStatements? roles = o.ifStatements? roles := by
  simp (disch := decide) only [Outline.ifStatements?, h.ifHeads, h.size, h.statementEnd?, h.elseChainWithin?, h.isAt,
    h.isDisjunction]

/-- **Outlines that say the same have the same tree.** -/
theorem tree? : o'.tree? = o.tree? := by
  simp only [Outline.tree?, h.size, h.scopes, h.declarationAttributes, h.declarations, h.parameterAttributes,
    h.keywordExpressions, h.objectCreations, h.invocations, h.casts, h.operatorRoles, h.usingStatements?,
    h.ifStatements?]

end Outline.Same

/-! ### The outline of a document -/

/-- Texts that count alike for brackets. -/
theorem bracketStep_eq (s : BracketScan) (i : Nat) {t t' : String}
    (ht : t' = t ∨ (isQuotedWord t' = true ∧ isQuotedWord t = true)) : s.step i t' = s.step i t := by
  have quoted : ∀ w, isQuotedWord w = true → isOpener w = false ∧ openerOf w = none := by
    intro w hw
    have hne : ∀ v, isQuotedWord v = false → (w == v) = false := by
      intro v hv
      rw [beq_eq_false_iff_ne]
      rintro rfl
      rw [hw] at hv
      cases hv
    have hp := hne ")" (by decide)
    have hb := hne "]" (by decide)
    have hc := hne "\x7d" (by decide)
    refine ⟨?_, ?_⟩
    · rw [isOpener, hne "(" (by decide), hne "[" (by decide), hne "\x7b" (by decide)]
      rfl
    · unfold openerOf
      split <;> simp_all
  rcases ht with rfl | ⟨h', h⟩
  · rfl
  · obtain ⟨ho', hm'⟩ := quoted t' h'
    obtain ⟨ho, hm⟩ := quoted t h
    rw [BracketScan.step, BracketScan.step, ho, ho', hm, hm']
    rfl

theorem foldl_bracketStep_eq : ∀ (l l' : List String) (n : Nat) (s : BracketScan), l'.length = l.length →
    (∀ k, l'.getD k "" = l.getD k "" ∨
      (isQuotedWord (l'.getD k "") = true ∧ isQuotedWord (l.getD k "") = true)) →
    (l'.zipIdx n).foldl (fun s (text, i) => s.step i text) s = (l.zipIdx n).foldl (fun s (text, i) => s.step i text) s
  | [], l', n, s, hl, _ => by rw [List.eq_nil_of_length_eq_zero hl]
  | t :: l, [], n, s, hl, _ => by cases hl
  | t :: l, t' :: l', n, s, hl, h => by
    have hstep : s.step n t' = s.step n t := bracketStep_eq s n (h 0)
    simp only [List.zipIdx_cons, List.foldl_cons, hstep]
    exact foldl_bracketStep_eq l l' (n + 1) _ (Nat.succ.inj hl) fun k => by simpa using h (k + 1)

namespace SameWords

variable {d e : Document} (h : SameWords d e)
include h

theorem isTypeArgPart (i : Nat) : e.isTypeArgPart i = d.isTypeArgPart i := by
  have hp : e.isOneOf i Document.typePunctuation = d.isOneOf i Document.typePunctuation := h.isOneOf (by decide) i
  rw [Document.isTypeArgPart, Document.isTypeArgPart, hp, h.kind, h.isPredefined, h.isOneOf (by decide)]

theorem angleEnd? (ids : List Nat) : ∀ depth : Nat, e.angleEnd? depth ids = d.angleEnd? depth ids := by
  induction ids with
  | nil => exact fun _ => rfl
  | cons j rest ih =>
    intro depth
    rw [Document.angleEnd?, Document.angleEnd?, h.wordAt_beq (by decide), h.wordAt_beq (w := ">") (by decide),
      h.isTypeArgPart, ih, ih, ih]

theorem typeArgsAt? (i : Nat) : e.typeArgsAt? i = d.typeArgsAt? i := by
  have hf : e.followsTypeArgs = d.followsTypeArgs := by
    funext i
    rw [Document.followsTypeArgs, Document.followsTypeArgs, h.isOneOf (by decide), h.kind]
  rw [Document.typeArgsAt?, Document.typeArgsAt?, h.wordAt_beq (by decide), h.kind, h.angleEnd?, hf, h.endOfFile]

theorem outline : (Outline.ofDocument d).Same (Outline.ofDocument e) where
  words := h
  brackets := by
    have hlen : (e.tokens.toList.map (·.text)).length = (d.tokens.toList.map (·.text)).length := by
      rw [List.length_map, List.length_map]
      exact h.size
    show Brackets.ofTexts _ = Brackets.ofTexts _
    rw [Brackets.ofTexts, Brackets.ofTexts, hlen]
    congr 1
    refine foldl_bracketStep_eq _ _ 0 _ hlen fun k => ?_
    rw [Document.getD_texts, Document.getD_texts]
    exact (h.last k).imp_right fun hl => ⟨hl.1, hl.2.1⟩
  argsEnd := by
    have ht : e.typeArgsAt? = d.typeArgsAt? := funext h.typeArgsAt?
    rw [Outline.ofDocument, Outline.ofDocument, h.endOfFile, ht]
  argsStart := by
    have ht : e.typeArgsAt? = d.typeArgsAt? := funext h.typeArgsAt?
    rw [Outline.ofDocument, Outline.ofDocument, h.endOfFile, ht, h.size]

/-- **Documents that say the same have the same tree.** -/
theorem tree : SyntaxTree.ofDocument? e = SyntaxTree.ofDocument? d := h.outline.tree?

end SameWords

end LayoutLint
