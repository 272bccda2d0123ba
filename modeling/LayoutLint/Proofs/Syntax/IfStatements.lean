import LayoutLint.Proofs.Syntax.Alternatives
/-!
# IfStatements — the node of an `if` statement

The `if` statements of a tree are those that are found by their keywords (`Outline.ofKind_ifStatement`). An `if` with a
condition and a `return` is one statement (`Outline.ifStatements?_of_words`), and its node tells whether the condition
is an alternative: without the parentheses around all of it a `||`, or a test for one of several patterns, unless all of
these end in type arguments or properties or hold a comma (`SyntaxTree.disjunction_of_words`).
-/
namespace LayoutLint

/-- The words of an `if` statement that returns under a condition. -/
def Condition.ifReturn (c : Condition) : List Word :=
  .keyword "if" :: (Word.inParens (c.words 0) ++ [.keyword "return", .sign ";"])

namespace Outline

variable {o : Outline}

/-- The `if` statements of a tree are those that are found by their keywords. -/
theorem ofKind_ifStatement {usings ifs : List SyntaxNode} (husings : o.usingStatements? = some usings)
    (hifs : ∀ declared, o.ifStatements? (o.operatorRoles o.scopes declared) = some ifs) :
    ∃ t, o.tree? = some t ∧ (t.ofKind .ifStatement).Perm ifs := by
  unfold tree?
  extract_lets size scopes attributeLists listNames attributeNodes attributeOpens declarations declarationOpens declared
    parameterLists parameterOpens claimed keywordOperands claimed₁ creations claimed₂ invocations claimed₃ casts
    roles
  rw [husings, hifs declared]
  refine ⟨_, rfl, ((List.mergeSort_perm _ _).filter _).trans (.of_eq ?_)⟩
  have hself : ∀ n ∈ ifs, (n.kind == .ifStatement) = true := by
    intro n hn
    obtain ⟨_, _, _, _, _, rfl, -⟩ := mem_ifStatements? (hifs declared) hn
    rfl
  rw [List.filter_append, List.filter_eq_self.2 hself, List.filter_eq_nil_iff.2, List.nil_append]
  intro n hn
  -- The other parts of the tree are nodes of other kinds.
  suffices n.kind ≠ .ifStatement from fun h => this (beq_iff_eq.1 h)
  have hpairs : ∀ {f : Nat × Nat → SyntaxNode} {l : List (Nat × Nat)}, n ∈ l.map f →
      (∀ p, (f p).kind ≠ .ifStatement) → n.kind ≠ .ifStatement := by
    intro f l hn hf
    obtain ⟨p, -, rfl⟩ := List.mem_map.1 hn
    exact hf p
  have hlists : ∀ {lists : List AttributeList}, n ∈ lists.flatMap AttributeList.nodes → n.kind ≠ .ifStatement := by
    intro lists hn
    obtain ⟨l, -, hn⟩ := List.mem_flatMap.1 hn
    exact hpairs hn fun _ h => nomatch h
  simp only [List.mem_append] at hn
  rcases hn with ((((((((hn | hn) | hn) | hn) | hn) | hn) | hn) | hn) | hn)
  · exact hlists hn
  · obtain ⟨d, -, hn⟩ := List.mem_flatMap.1 hn
    rcases List.mem_cons.1 hn with rfl | hn
    · exact fun h => nomatch h
    · obtain ⟨m, -, rfl⟩ := Option.map_eq_some_iff.1 (Option.mem_toList.1 hn)
      exact fun h => nomatch h
  · exact hlists hn
  · exact hpairs hn fun _ h => nomatch h
  · exact hpairs hn fun _ h => nomatch h
  · obtain ⟨i, -, hn⟩ := List.mem_flatMap.1 hn
    split at hn
    · rcases mem_invocationAt hn with rfl | ⟨_, _, -, -, -, rfl⟩ <;> exact fun h => nomatch h
    · cases hn
  · exact hpairs hn fun _ h => nomatch h
  · obtain ⟨⟨role, i⟩, -, hn⟩ := List.mem_filterMap.1 hn
    obtain ⟨role, -, rfl⟩ := Option.map_eq_some_iff.1 hn
    exact fun h => nomatch h
  · obtain ⟨_, _, _, _, rfl, -⟩ := mem_usingStatements? husings hn
    exact fun h => nomatch h

/-- A `return` and a semicolon are one statement. -/
theorem statementEnd?_return {s : Nat} (hs : s + 1 < o.eof) (hreturn : o.word s = "return")
    (hend : o.word (s + 1) = ";") : o.statementEnd? s = some (s + 1) := by
  have hkeyword : ∀ {word : String}, "return" ≠ word → o.isKeyword s word = false := fun hne =>
    isKeyword_of_isAt (beq_iff_eq.2 hreturn) hne
  have hat : ∀ {word : String}, "return" ≠ word → o.isAt s word = false := fun hne =>
    isAt_of_isAt (beq_iff_eq.2 hreturn) hne
  have hone : ∀ {words : List String}, words.contains "return" = false → o.isOneOf s words = false := fun hw => by
    rw [isOneOf, Document.isOneOf, show o.document.wordAt s = "return" from hreturn, hw]
  have hfound : o.isOneOf (s + 1) [";", ")", "]", "\x7d"] = true := by
    rw [isOneOf, Document.isOneOf, show o.document.wordAt (s + 1) = ";" from hend]
    rfl
  have hexpression : o.expressionEnd s = s + 1 := by
    rw [expressionEnd, walk, if_pos (by omega), hone (by decide), hone (by decide), if_neg Bool.false_ne_true,
      if_neg Bool.false_ne_true, walk, if_pos hs, if_pos hfound]
    show (if o.isAt (s + 1) ";" = true then s + 1 else _) = s + 1
    rw [isAt, hend]
    rfl
  rw [statementEnd?, statementEndWithin?, if_neg (by omega), hat (by decide), hkeyword (by decide), hone (by decide),
    hkeyword (by decide), hkeyword (by decide), hkeyword (by decide), hone (by decide), hexpression]
  simp

variable {d : Document} {c : Condition}

theorem wordOf_of_isKeyword {i : Nat} {text : String} (h : o.isKeyword i text = true) :
    o.document.wordOf i = .keyword text := by
  obtain ⟨hkind, htext⟩ := Bool.and_eq_true_iff.1 h
  rw [Document.wordOf, beq_iff_eq.1 hkind, beq_iff_eq.1 htext]
  rfl

/-- No statement with a head starts behind the `if`. -/
theorem ifReturn_tail : ∀ w ∈ Word.inParens (c.words 0) ++ [.keyword "return", .sign ";"],
    w ≠ .keyword "if" ∧ w ≠ .keyword "using" := by
  refine List.forall_mem_append.2 ⟨Word.forall_mem_inParens (by decide) (by decide) fun w hw => ?_, by decide⟩
  rcases c.plain_or_mark 0 w hw with hw | hw
  · exact ⟨fun h => absurd (h ▸ hw) (by decide), fun h => absurd (h ▸ hw) (by decide)⟩
  · exact (by decide : ∀ w ∈ Condition.marks, w ≠ .keyword "if" ∧ w ≠ .keyword "using") w hw

theorem usingHeads_of_words (h : d.words = c.ifReturn) : (ofDocument d).usingHeads = [] := by
  refine List.filterMap_eq_nil_iff.2 fun i hi => if_neg fun hhead => ?_
  have hword := wordOf_of_isKeyword (Bool.and_eq_true_iff.1 hhead).1
  have hmem : Word.keyword "using" ∈ c.ifReturn := h ▸ List.mem_map.2 ⟨i, hi, hword⟩
  rcases List.mem_cons.1 hmem with hmem | hmem
  · exact absurd hmem (by decide)
  · exact (ifReturn_tail _ hmem).2 rfl

theorem endOfFile_of_words (h : d.words = c.ifReturn) : d.endOfFile = (c.words 0).length + 5 := by
  have hlen := congrArg List.length h
  simp only [Document.words, List.length_map, List.length_range, Condition.ifReturn, Word.length_inParens,
    List.length_cons, List.length_append, List.length_nil] at hlen
  omega

theorem spells_of_words (h : d.words = c.ifReturn) {n : Nat} (hn : (c.words 0).length = n) :
    d.wordOf 0 = .keyword "if" ∧ d.wordOf 1 = .sign "(" ∧ d.Spells 2 (c.words 0) ∧ d.wordOf (n + 2) = .sign ")" ∧
      d.wordOf (n + 3) = .keyword "return" ∧ d.wordOf (n + 4) = .sign ";" := by
  have hspells : d.Spells 0 c.ifReturn := h ▸ d.spells_words
  obtain ⟨hif, hspells⟩ := Document.spells_cons.1 hspells
  obtain ⟨hparens, hspells⟩ := Document.spells_append.1 hspells
  obtain ⟨hopens, hparens⟩ := Document.spells_cons.1 hparens
  obtain ⟨hinner, hcloses⟩ := Document.spells_append.1 hparens
  obtain ⟨hreturn, hend⟩ := Document.spells_cons.1 hspells
  have hlen : 0 + 1 + (Word.inParens (c.words 0)).length = n + 3 := by
    rw [Word.length_inParens]
    omega
  rw [hlen] at hreturn hend
  rw [show 0 + 1 + 1 + (c.words 0).length = n + 2 by omega] at hcloses
  exact ⟨hif, hopens, hinner, (Document.spells_cons.1 hcloses).1, hreturn, (Document.spells_cons.1 hend).1⟩

/-- The parenthesis behind the `if` is closed behind the condition. -/
theorem closing?_of_words (h : d.words = c.ifReturn) : (ofDocument d).closing? 1 = some ((c.words 0).length + 2) := by
  obtain ⟨-, hopens, hinner, hcloses, -, -⟩ := spells_of_words h rfl
  have hopens : d.wordAt 1 = "(" := congrArg Word.text hopens
  have hcloses : d.wordAt (1 + 1 + (c.words 0).length) = ")" := by
    rw [show 1 + 1 + (c.words 0).length = (c.words 0).length + 2 by omega]
    exact congrArg Word.text hcloses
  have hsize := d.size_eq
  have heof := endOfFile_of_words h
  rw [closing?_of_balanced (by omega) (by rw [hopens]; rfl) (by rw [hopens, hcloses]; rfl)
    (hinner.balanced (c.balanced 0))]
  congr 1
  omega

/-- The `if` is the only one. -/
theorem ifHeads_of_words (h : d.words = c.ifReturn) : (ofDocument d).ifHeads = [(0, (c.words 0).length + 2)] := by
  obtain ⟨hif, hopens, -⟩ := spells_of_words h rfl
  have heof : (ofDocument d).eof = (c.words 0).length + 5 := endOfFile_of_words h
  have hhead : ((ofDocument d).isKeyword 0 "if" && (ofDocument d).isAt (0 + 1) "(") = true := by
    refine Bool.and_eq_true_iff.2 ⟨Bool.and_eq_true_iff.2 ⟨?_, ?_⟩, ?_⟩
    · exact beq_iff_eq.2 (congrArg Word.kind hif)
    · exact beq_iff_eq.2 (congrArg Word.text hif)
    · exact beq_iff_eq.2 (congrArg Word.text hopens)
  have hids : (ofDocument d).ids = 0 :: List.range' 1 ((c.words 0).length + 4) := by
    rw [ids, List.range_eq_range', heof, List.range'_succ]
  have htail : d.Spells 1 (Word.inParens (c.words 0) ++ [.keyword "return", .sign ";"]) :=
    (Document.spells_cons.1 (h ▸ d.spells_words : d.Spells 0 c.ifReturn)).2
  rw [ifHeads, hids, List.filterMap_cons_some (b := (0, (c.words 0).length + 2)), List.filterMap_eq_nil_iff.2]
  · intro i hi
    obtain ⟨hle, hlt⟩ := List.mem_range'_1.1 hi
    refine if_neg fun hhead =>
      (ifReturn_tail _ (htail.mem hle ?_)).1 (wordOf_of_isKeyword (Bool.and_eq_true_iff.1 hhead).1)
    rw [List.length_append, Word.length_inParens, List.length_cons, List.length_singleton]
    omega
  · rw [if_pos hhead, closing?_of_words h, Option.bind_some, if_pos (by omega)]

/-- **An `if` statement tells whether its condition is an alternative.** -/
theorem ifStatements?_of_words (h : d.words = c.ifReturn) (hd : d.Proper) {scopes : Scopes} (declared : TokenSet) :
    (ofDocument d).ifStatements? ((ofDocument d).operatorRoles scopes declared) =
      some [.ifStatement ⟨0, (c.words 0).length + 4⟩ c.isAlternative ((c.words 0).length + 3) false] := by
  generalize hn : (c.words 0).length = n
  obtain ⟨-, -, hinner, -, hreturn, hend⟩ := spells_of_words h hn
  have heof : d.endOfFile = n + 5 := hn ▸ endOfFile_of_words h
  have hbody : (ofDocument d).isAt (n + 3) "\x7b" = false :=
    isAt_of_isAt (beq_iff_eq.2 (congrArg Word.text hreturn)) (by decide)
  have hstatement : (ofDocument d).statementEnd? (n + 3) = some (n + 4) :=
    statementEnd?_return (show n + 4 < d.endOfFile by omega) (congrArg Word.text hreturn) (congrArg Word.text hend)
  have helse : (ofDocument d).isKeyword (n + 4 + 1) "else" = false := by
    rw [isKeyword, Document.isKeywordAt, show n + 4 + 1 = d.endOfFile by omega,
      show (ofDocument d).document = d from rfl, hd.wordAt_endOfFile.2]
    rfl
  have hchain : (ofDocument d).elseChainWithin? ((ofDocument d).document.size + 1) (n + 4) = some (n + 4, false) := by
    rw [elseChainWithin?, helse, if_neg Bool.false_ne_true]
  have hcondition : (ofDocument d).isDisjunction ((ofDocument d).operatorRoles scopes declared) 1 (n + 2) =
      c.isAlternative := by
    have hscan := isDisjunction_eq_isAlternative scopes declared c (k := 1) hinner (by omega)
    rwa [show 1 + 1 + (c.words 0).length = n + 2 by omega] at hscan
  rw [ifStatements?, ifHeads_of_words h, hn, List.mapM_cons, List.mapM_nil]
  simp only [hstatement, hcondition, hbody, Option.bind_eq_bind, Option.bind_some, hchain]
  rfl

end Outline

/-- **Which conditions are told to be alternatives**: without the parentheses around all of them, a `||`, or a test for
one of two patterns of which the first holds such a pattern in turn or is read on to the `or`. -/
theorem SyntaxTree.disjunction_of_words {s : String} {d : Document} {c : Condition} (h : Document.ofSource s = .ok d)
    (hwords : d.words = c.ifReturn) :
    ∃ t disjunction, ofDocument? d = some t ∧
      t.ofKind .ifStatement =
        [.ifStatement ⟨0, (c.words 0).length + 4⟩ disjunction ((c.words 0).length + 3) false] ∧
      (disjunction = true ↔ (∃ a b, c.root = .or a b) ∨
        ∃ n p q, c.root = .is n (.or p q) ∧ (p.isAlternative = true ∨ p.isReadOn = true)) := by
  obtain ⟨hd, -⟩ := Document.parsed_of_ofSource h
  have husings : (Outline.ofDocument d).usingStatements? = some [] := by
    rw [Outline.usingStatements?, Outline.usingHeads_of_words hwords]
    rfl
  obtain ⟨t, ht, hifs⟩ := Outline.ofKind_ifStatement husings
    fun declared => Outline.ifStatements?_of_words hwords hd.proper declared
  exact ⟨t, c.isAlternative, ht, List.perm_singleton.1 hifs, c.isAlternative_iff⟩

/-- `x is List<int> or Foo` -/
def Condition.listOrFoo : Condition :=
  .is ⟨"x", by decide, by decide⟩ (.or
    (.type (.generic ⟨"List", by decide, by decide⟩ (.one (.predefined "int" (by decide)))))
    (.type (.named ⟨"Foo", by decide, by decide⟩)))

/-- An alternative of which the first pattern ends in type arguments is not told to be one. -/
theorem SyntaxTree.disjunction_of_words_typeArgs :
    ∃ d t, Document.ofSource "if (x is List<int> or Foo) return;" = .ok d ∧
      d.words = Condition.listOrFoo.ifReturn ∧ ofDocument? d = some t ∧
      t.ofKind .ifStatement = [.ifStatement ⟨0, 12⟩ false 11 false] := by
  obtain ⟨d, hd, h⟩ := exists_ok_of_any (e := Document.ofSource "if (x is List<int> or Foo) return;")
    (p := fun d => decide (d.words = Condition.listOrFoo.ifReturn)) (by decide +kernel)
  have hwords := of_decide_eq_true h
  obtain ⟨t, disjunction, ht, hifs, hiff⟩ := SyntaxTree.disjunction_of_words hd hwords
  have hfalse : disjunction = false := by
    rw [Bool.eq_false_iff, ne_eq, hiff]
    rintro (⟨a, b, hroot⟩ | ⟨n, p, q, hroot, hread⟩)
    · cases hroot
    · cases hroot
      revert hread
      decide
  rw [hfalse] at hifs
  exact ⟨d, t, hd, hwords, ht, hifs⟩

end LayoutLint
