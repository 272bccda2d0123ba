import LayoutLint.Proofs.Syntax.Words
/-!
# Shapes — types, attributes and declarations in outlines that say the same

Every search of the recognizer asks an outline for words, kinds and brackets only, so it ends alike in two outlines that
say the same. The searches are taken one by one, in the order in which they build on one another.
-/
namespace LayoutLint.Outline.Same

variable {o o' : Outline} (h : o.Same o')
include h

/-! ### Walks and types -/

theorem walk {stops jumps : List String} (hs : arePlain stops = true) (hj : arePlain jumps = true) (i : Nat) :
    o'.walk stops jumps i = o.walk stops jumps i := by
  have hc := h.closing?
  fun_induction Outline.walk o stops jumps i
  all_goals
    rw [Outline.walk.eq_def o']
    simp only [h.eof, h.isOneOf hs, h.isOneOf hj, *, if_true, if_false, Bool.false_eq_true]
  all_goals split <;> simp_all

theorem expressionEnd (i : Nat) : o'.expressionEnd i = o.expressionEnd i := by
  simp (disch := decide) only [Outline.expressionEnd, h.walk, h.isAt, h.lastReal]

theorem isRank (i : Nat) : o'.isRank i = o.isRank i := by
  simp (disch := decide) only [Outline.isRank, h.opening?, h.isAt]

theorem isTypeEnd (i : Nat) : o'.isTypeEnd i = o.isTypeEnd i := by
  induction i with
  | zero =>
    simp (disch := decide) only [Outline.isTypeEnd, h.isName, h.isPredefined, h.closesTypeArgs, h.isAt, h.isRank]
  | succ i ih =>
    simp (disch := decide) only [Outline.isTypeEnd, h.isName, h.isPredefined, h.closesTypeArgs, h.isAt, h.isRank,
      h.isOneOf, ih]

theorem typeStart? (i : Nat) : o'.typeStart? i = o.typeStart? i := by
  have hop := h.opening?
  have hst := h.typeArgsStart?
  fun_induction Outline.typeStart? o i
  all_goals
    rw [Outline.typeStart?.eq_def o']
    simp (disch := decide) only [h.isOneOf, h.isAt, h.isIdentifier, h.isPredefined, h.isRank, *, if_true, if_false,
      Bool.false_eq_true]
  all_goals split <;> simp_all

theorem qualifiedEnd (i : Nat) : o'.qualifiedEnd i = o.qualifiedEnd i := by
  fun_induction Outline.qualifiedEnd o i with
  | case1 i last hc ih =>
    rw [Outline.qualifiedEnd.eq_def o']
    simp (disch := decide) only [h.typeArgsEnd?, h.isOneOf, h.kind]
    exact (dif_pos hc).trans ih
  | case2 i last hc =>
    rw [Outline.qualifiedEnd.eq_def o']
    simp (disch := decide) only [h.typeArgsEnd?, h.isOneOf, h.kind]
    exact dif_neg hc

theorem nullableEnd (i : Nat) : o'.nullableEnd i = o.nullableEnd i := by
  fun_induction Outline.nullableEnd o i
  all_goals
    rw [Outline.nullableEnd.eq_def o']
    simp (disch := decide) only [h.size, h.isAt, *, dite_true, dite_false, Bool.false_eq_true]

theorem typeNameEnd? (i : Nat) : o'.typeNameEnd? i = o.typeNameEnd? i := by
  simp (disch := decide) only [Outline.typeNameEnd?, h.isAt, h.isIdentifier, h.isPredefined, h.nullableEnd,
    h.qualifiedEnd]

theorem castTypeTail (i : Nat) : o'.castTypeTail i = o.castTypeTail i := by
  have hc := h.closing?
  fun_induction Outline.castTypeTail o i
  all_goals
    rw [Outline.castTypeTail.eq_def o']
    simp (disch := decide) only [h.size, h.isOneOf, h.isAt, h.isRank, *, dite_true, dite_false, if_true, if_false,
      Bool.false_eq_true]
  all_goals split <;> simp_all

theorem castTypeEnd? (i : Nat) : o'.castTypeEnd? i = o.castTypeEnd? i := by
  have ht : o'.castTypeTail = o.castTypeTail := funext h.castTypeTail
  rw [Outline.castTypeEnd?, Outline.castTypeEnd?, h.typeNameEnd?, ht]

/-! ### Attributes -/

theorem dottedEnd (i : Nat) : o'.dottedEnd i = o.dottedEnd i := by
  fun_induction Outline.dottedEnd o i
  all_goals
    rw [Outline.dottedEnd.eq_def o']
    simp (disch := decide) only [h.isOneOf, h.kind, *, dite_true, dite_false, Bool.false_eq_true]

theorem attributeNameEnd (i : Nat) : o'.attributeNameEnd i = o.attributeNameEnd i := by
  simp only [Outline.attributeNameEnd, h.dottedEnd, h.typeArgsEnd?]

theorem afterParens? (i : Nat) : o'.afterParens? i = o.afterParens? i := by
  simp (disch := decide) only [Outline.afterParens?, h.isAt, h.closing?]

/-- An attribute name stands in front of a comma or a bracket, so it is not at the end. -/
theorem joined {text : String} (hne : text ≠ "") {first last next : Nat} (hn : last + 1 ≤ next)
    (hi : o.isAt next text = true) :
    o'.document.joined first (last + 1) = o.document.joined first (last + 1) := by
  have hlt := h.lt_eof hne hi
  have hpos := o.document.size_pos
  rw [Outline.eof, Document.endOfFile] at hlt
  exact h.words.joined (by omega)

theorem attributesFrom? (close i : Nat) : o'.attributesFrom? close i = o.attributesFrom? close i := by
  fun_induction Outline.attributesFrom? o close i with
  | case1 i hid nameEnd hp =>
    rw [Outline.attributesFrom?.eq_def o', dif_pos (by rwa [h.isIdentifier])]
    simp only [h.attributeNameEnd]
    split
    · rfl
    · rename_i next heq
      rw [h.afterParens?, h.attributeNameEnd, show o.afterParens? (o.attributeNameEnd i + 1) = none from hp] at heq
      cases heq
  | case2 i hid nameEnd name arguments next hp hcomma ih =>
    have hle := le_of_afterParens? hp
    rw [Outline.attributesFrom?.eq_def o', dif_pos (by rwa [h.isIdentifier])]
    simp only [h.attributeNameEnd]
    split
    · rename_i heq
      rw [h.afterParens?, h.attributeNameEnd, show o.afterParens? (o.attributeNameEnd i + 1) = some next from hp] at heq
      cases heq
    · rename_i next' heq
      rw [h.afterParens?, h.attributeNameEnd, show o.afterParens? (o.attributeNameEnd i + 1) = some next from hp] at heq
      cases heq
      rw [if_pos (by rwa [h.isAt (by decide)]), ih, h.isAt (by decide),
        show o'.document.joined i (o.attributeNameEnd i + 1) = name from h.joined (by decide) hle hcomma]
      rfl
  | case3 i hid nameEnd name arguments next hp hcomma hbracket =>
    have hle := le_of_afterParens? hp
    rw [Outline.attributesFrom?.eq_def o', dif_pos (by rwa [h.isIdentifier])]
    simp only [h.attributeNameEnd]
    split
    · rename_i heq
      rw [h.afterParens?, h.attributeNameEnd, show o.afterParens? (o.attributeNameEnd i + 1) = some next from hp] at heq
      cases heq
    · rename_i next' heq
      rw [h.afterParens?, h.attributeNameEnd, show o.afterParens? (o.attributeNameEnd i + 1) = some next from hp] at heq
      cases heq
      rw [if_neg (by rwa [h.isAt (by decide)]), if_pos (by rwa [h.isAt (by decide)]), h.isAt (by decide),
        show o'.document.joined i (o.attributeNameEnd i + 1) = name from
          h.joined (by decide) hle (Bool.and_eq_true_iff.1 hbracket).1]
      rfl
  | case4 i hid nameEnd next hp hcomma hbracket =>
    rw [Outline.attributesFrom?.eq_def o', dif_pos (by rwa [h.isIdentifier])]
    simp only [h.attributeNameEnd]
    split
    · rfl
    · rename_i next' heq
      rw [h.afterParens?, h.attributeNameEnd, show o.afterParens? (o.attributeNameEnd i + 1) = some next from hp] at heq
      cases heq
      rw [if_neg (by rwa [h.isAt (by decide)]), if_neg (by rwa [h.isAt (by decide)])]
  | case5 i hid => rw [Outline.attributesFrom?.eq_def o', dif_neg (by rwa [h.isIdentifier])]

theorem attributeListAt? (i : Nat) : o'.attributeListAt? i = o.attributeListAt? i := by
  simp (disch := decide) only [Outline.attributeListAt?, h.closing?, h.kind, h.isAt, h.attributesFrom?]

theorem declarationAttributes : o'.declarationAttributes = o.declarationAttributes := by
  simp (disch := decide) only [Outline.declarationAttributes, h.ids, h.isAt, h.isOneOf, h.attributeListAt?]

theorem enclosingParen? (i : Nat) : o'.enclosingParen? i = o.enclosingParen? i := by
  fun_induction Outline.enclosingParen? o i with
  | case1 i hi j hclose ih =>
    rw [Outline.enclosingParen?.eq_def o', dif_pos hi]
    simp (disch := decide) only [h.isOneOf, h.isAt, h.opening?]
    exact (if_pos hclose).trans ih
  | case2 i hi j hclose hopen =>
    rw [Outline.enclosingParen?.eq_def o', dif_pos hi]
    simp (disch := decide) only [h.isOneOf, h.isAt, h.opening?]
    exact (if_neg hclose).trans (if_pos hopen)
  | case3 i hi j hclose hopen hstop =>
    rw [Outline.enclosingParen?.eq_def o', dif_pos hi]
    simp (disch := decide) only [h.isOneOf, h.isAt, h.opening?]
    exact (if_neg hclose).trans ((if_neg hopen).trans (if_pos hstop))
  | case4 i hi j hclose hopen hstop ih =>
    rw [Outline.enclosingParen?.eq_def o', dif_pos hi]
    simp (disch := decide) only [h.isOneOf, h.isAt, h.opening?]
    exact (if_neg hclose).trans ((if_neg hopen).trans ((if_neg hstop).trans ih))
  | case5 i hi => rw [Outline.enclosingParen?.eq_def o', dif_neg hi]

theorem parameterAttributes (lists : TokenSet) (known : Nat → Bool) :
    o'.parameterAttributes lists known = o.parameterAttributes lists known := by
  simp (disch := decide) only [Outline.parameterAttributes, h.ids, h.isAt, h.isOneOf, h.closing?, h.enclosingParen?,
    h.attributeListAt?]

/-! ### Scopes -/

theorem headerEnd (i : Nat) : o'.headerEnd i = o.headerEnd i := h.walk (by decide) (by decide) i

theorem bodyAfter? (i : Nat) : o'.bodyAfter? i = o.bodyAfter? i := by
  simp (disch := decide) only [Outline.bodyAfter?, h.headerEnd, h.isAt]

theorem typeNameAfter? (i : Nat) : o'.typeNameAfter? i = o.typeNameAfter? i := by
  have hn : o'.isName = o.isName := funext h.isName
  simp (disch := decide) only [Outline.typeNameAfter?, h.isOneOf, h.kind, h.isAt, h.isIdentifier, hn]

/-- The word of a name counts. -/
theorem word_of_isName {i : Nat} (hi : o.isName i = true) : o'.word i = o.word i := by
  refine h.words.wordAt_of_identifier ?_
  rw [Outline.isName, Document.isNameAt, Bool.and_eq_true, beq_iff_eq] at hi
  exact hi.1

theorem typeBodyAt? (i : Nat) : o'.typeBodyAt? i = o.typeBodyAt? i := by
  rw [Outline.typeBodyAt?, Outline.typeBodyAt?, h.typeNameAfter?]
  cases hn : o.typeNameAfter? i with
  | none => rfl
  | some name =>
    have hname : o.isName name = true := (Option.filter_eq_some_iff.1 hn).2
    simp only [Option.bind_eq_bind, Option.bind_some, h.bodyAfter?, h.word_of_isName hname]

theorem namespaceHeads : o'.namespaceHeads = o.namespaceHeads := by
  simp (disch := decide) only [Outline.namespaceHeads, h.ids, h.isKeyword]

theorem namespaceBodies : o'.namespaceBodies = o.namespaceBodies := by
  simp only [Outline.namespaceBodies, h.namespaceHeads, h.bodyAfter?, h.size]

theorem inNamespaceScope (body : Array Bool) (i : Nat) :
    o'.inNamespaceScope body i = o.inNamespaceScope body i := by
  rw [Outline.inNamespaceScope, Outline.inNamespaceScope, h.brackets]

theorem directiveEnd? (body : Array Bool) (i : Nat) : o'.directiveEnd? body i = o.directiveEnd? body i := by
  simp (disch := decide) only [Outline.directiveEnd?, h.isKeyword, h.isAt, h.inNamespaceScope, h.walk]

theorem importAt? {i stop : Nat} (hs : o.isAt stop ";" = true) : o'.importAt? i stop = o.importAt? i stop := by
  have hj : ∀ first, o'.document.joined first stop = o.document.joined first stop := by
    intro first
    have hlt := h.lt_eof (by decide) hs
    have hpos := o.document.size_pos
    rw [Outline.eof, Document.endOfFile] at hlt
    exact h.words.joined (by omega)
  simp (disch := decide) only [Outline.importAt?, h.isKeyword, h.isAt, hj]

theorem scopes : o'.scopes = o.scopes := by
  have hdir : ∀ i stop, (i, stop) ∈ (o.ids.filterMap fun i =>
      (o.directiveEnd? o.namespaceBodies i).map fun stop => (i, stop)) → o.isAt stop ";" = true := by
    intro i stop hm
    obtain ⟨j, -, hj⟩ := List.mem_filterMap.1 hm
    obtain ⟨s, hs, he⟩ := Option.map_eq_some_iff.1 hj
    obtain ⟨rfl, rfl⟩ := Prod.mk.inj he
    rw [Outline.directiveEnd?] at hs
    split at hs
    · simp only at hs
      split at hs
      · cases hs
        assumption
      · cases hs
    · cases hs
  have himports : ∀ l : List (Nat × Nat), (∀ i stop, (i, stop) ∈ l → o.isAt stop ";" = true) →
      (l.filterMap fun x => o'.importAt? x.1 x.2) = l.filterMap fun x => o.importAt? x.1 x.2 :=
    fun l hl => List.filterMap_congr fun x hx => h.importAt? (hl x.1 x.2 hx)
  have hbody : o'.typeBodyAt? = o.typeBodyAt? := funext h.typeBodyAt?
  simp only [Outline.scopes, h.namespaceBodies, h.ids, h.directiveEnd?, h.namespaceHeads, h.headerEnd, hbody, h.size,
    himports _ hdir]

theorem inTypeBody (s : Scopes) (i : Nat) : o'.inTypeBody s i = o.inTypeBody s i := by
  rw [Outline.inTypeBody, Outline.inTypeBody, h.brackets]

theorem containerOf? (s : Scopes) (i : Nat) : o'.containerOf? s i = o.containerOf? s i := by
  have hb := h.brackets
  fun_induction Outline.containerOf? o s i
  all_goals
    rw [Outline.containerOf?.eq_def o']
    split <;> simp_all

end LayoutLint.Outline.Same
