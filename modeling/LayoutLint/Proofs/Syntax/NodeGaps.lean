import LayoutLint.Gap
import LayoutLint.Proofs.Fallible
import LayoutLint.Proofs.Lexing.Tokens
import LayoutLint.Proofs.Syntax.Tables
import LayoutLint.Proofs.Syntax.Words
import LayoutLint.Syntax.Recognize
/-!
# NodeGaps — the gaps that nodes are about

Six kinds of nodes are about a gap, each with what it should hold (`SyntaxNode.gap?`). Such a gap stands between two
tokens that follow one another, of which the second is a parenthesis, or the first one closes a cast (`Outline.Meets`).
A gap that should hold a space is that of a declaration, and no other node is about it (`gaps_of_tree?`).
-/
namespace LayoutLint

/-- The gap that a node is about, by its two tokens, with what it should hold. -/
def SyntaxNode.gap? : SyntaxNode → Option (GapContract × Nat × Nat)
  | parameterList _ name opening => some (.singleSpace, name, opening)
  | invocation callee opening => some (.noWhitespace, callee, opening)
  | objectCreation typeEnd opening => some (.noWhitespace, typeEnd, opening)
  | keywordExpression keyword opening => some (.noWhitespace, keyword, opening)
  | castExpression closing operand => some (.noWhitespace, closing, operand)
  | attributeArguments nameEnd opening => some (.noWhitespace, nameEnd, opening)
  | _ => none

/-- A document whose words look like what they are: the end has none, literals have quotes, and a closing parenthesis is
punctuation. -/
structure Document.Spelled (d : Document) : Prop where
  eof : d.wordAt d.endOfFile = ""
  eofKind : d.kindAt d.endOfFile = .endOfFile
  quoted : ∀ i, (d.kindAt i).isQuoted = true → isQuotedWord (d.wordAt i) = true
  paren : ∀ i, d.wordAt i = ")" → d.kindAt i = .punctuation

namespace Outline

variable {o : Outline}

/-- What the two tokens of a gap have to be. -/
structure Meets (o : Outline) (c : GapContract) (left right : Nat) : Prop where
  next : right = left + 1
  inside : right < o.eof
  plain : (o.kind left).isQuoted = false
  words : o.isAt right "(" = true ∨ (c = .noWhitespace ∧ o.isAt left ")" = true)

theorem lt_eof_of_kind (hs : o.document.Spelled) {i : Nat} (hi : o.kind i ≠ .endOfFile) : i < o.eof := by
  have h := o.document.size_pos
  have hlt : i < o.document.size := Document.lt_size_of_kindAt hi
  have hne : i ≠ o.document.endOfFile := fun he => hi (by rw [he]; exact hs.eofKind)
  rw [Outline.eof, Document.endOfFile]
  rw [Document.endOfFile] at hne
  omega

theorem lt_eof_of_isAt (hs : o.document.Spelled) {i : Nat} {text : String} (hne : text ≠ "")
    (hi : o.isAt i text = true) : i < o.eof := by
  have h := o.document.size_pos
  have hlt := lt_size_of_isAt hi hne
  have hne' : i ≠ o.document.endOfFile := by
    rintro rfl
    exact hne ((beq_iff_eq.1 hi).symm.trans hs.eof)
  rw [Outline.eof, Document.endOfFile]
  rw [Document.endOfFile] at hne'
  omega

/-- A word that stands in front of a parenthesis in a gap. -/
def IsHead (o : Outline) (i : Nat) : Prop :=
  o.kind i = .identifier ∨ o.kind i = .keyword ∨ o.isAt i ">" = true ∨ o.isAt i "?" = true

theorem IsHead.plain (hs : o.document.Spelled) {i : Nat} (h : o.IsHead i) : (o.kind i).isQuoted = false := by
  rcases h with h | h | h
  · rw [h]; rfl
  · rw [h]; rfl
  · cases hq : (o.kind i).isQuoted with
    | false => rfl
    | true =>
      have := hs.quoted i hq
      rcases h with h | h
      · rw [show o.document.wordAt i = ">" from beq_iff_eq.1 h] at this
        exact absurd this (by decide)
      · rw [show o.document.wordAt i = "?" from beq_iff_eq.1 h] at this
        exact absurd this (by decide)

theorem IsHead.not_paren (hs : o.document.Spelled) {i : Nat} (h : o.IsHead i) : o.isAt i ")" = false := by
  cases hp : o.isAt i ")" with
  | false => rfl
  | true =>
    have hw : o.document.wordAt i = ")" := beq_iff_eq.1 hp
    have hk : o.kind i = .punctuation := hs.paren i hw
    rcases h with h | h | h | h
    · rw [hk] at h; cases h
    · rw [hk] at h; cases h
    · exact absurd (hw.symm.trans (beq_iff_eq.1 h)) (by decide)
    · exact absurd (hw.symm.trans (beq_iff_eq.1 h)) (by decide)

theorem IsHead.meets (hs : o.document.Spelled) {i : Nat} (h : o.IsHead i) (hi : o.isAt (i + 1) "(" = true)
    (c : GapContract) : o.Meets c i (i + 1) :=
  ⟨rfl, lt_eof_of_isAt hs (by decide) hi, h.plain hs, .inl hi⟩

/-! ### Names -/

theorem isHead_of_isName {i : Nat} (h : o.isName i = true) : o.IsHead i := by
  rw [Outline.isName, Document.isNameAt, Bool.and_eq_true] at h
  exact .inl (beq_iff_eq.1 h.1)

theorem isHead_of_isPredefined {i : Nat} (h : o.isPredefined i = true) : o.IsHead i := by
  rw [Outline.isPredefined, Document.isPredefined, Bool.and_eq_true] at h
  exact .inr (.inl (beq_iff_eq.1 h.1))

theorem isHead_of_isKeyword {i : Nat} {word : String} (h : o.isKeyword i word = true) : o.IsHead i := by
  rw [Outline.isKeyword, Document.isKeywordAt, Bool.and_eq_true] at h
  exact .inr (.inl (beq_iff_eq.1 h.1))

theorem Sound.isHead_of_nameBefore? (ho : o.Sound) {i n : Nat} (h : o.nameBefore? i = some n) : o.IsHead i := by
  rw [nameBefore?] at h
  split at h
  · rename_i start hs
    exact .inr (.inr (.inl (ho.argsStart hs)))
  · split at h
    · rename_i hn
      exact isHead_of_isName hn
    · cases h

theorem kind_dottedEnd {i : Nat} (h : o.kind i = .identifier) : o.kind (o.dottedEnd i) = .identifier := by
  fun_induction dottedEnd o i with
  | case1 i hc ih =>
    rw [Bool.and_eq_true, beq_iff_eq] at hc
    exact ih hc.2
  | case2 => exact h

/-- What ends the name of an attribute is an identifier or an angle bracket. -/
theorem Sound.attributeNameEnd (ho : o.Sound) {i : Nat} (h : o.isIdentifier i = true) :
    o.kind (o.attributeNameEnd i) = .identifier ∨ o.isAt (o.attributeNameEnd i) ">" = true := by
  rw [Outline.attributeNameEnd]
  cases ha : o.typeArgsEnd? (o.dottedEnd i + 1) with
  | none => exact .inl (kind_dottedEnd (beq_iff_eq.1 h))
  | some c => exact .inr (ho.argsEnd ha)

theorem Sound.isHead_qualifiedEnd (ho : o.Sound) {i : Nat} (h : o.IsHead i) : o.IsHead (o.qualifiedEnd i) := by
  fun_induction qualifiedEnd o i with
  | case1 i last hc ih =>
    rw [Bool.and_eq_true, beq_iff_eq] at hc
    exact ih (.inl hc.2)
  | case2 i last hc =>
    show o.IsHead ((o.typeArgsEnd? (i + 1)).getD i)
    cases ha : o.typeArgsEnd? (i + 1) with
    | none => exact h
    | some c => exact .inr (.inr (.inl (ho.argsEnd ha)))

theorem isHead_nullableEnd {i : Nat} (h : o.IsHead i) : o.IsHead (o.nullableEnd i) := by
  fun_induction nullableEnd o i with
  | case1 i hc ih =>
    rw [Bool.and_eq_true] at hc
    exact ih (.inr (.inr (.inr hc.2)))
  | case2 => exact h

theorem Sound.isHead_of_typeNameEnd? (ho : o.Sound) {i last : Nat} (h : o.typeNameEnd? i = some last) :
    o.IsHead last := by
  rw [typeNameEnd?] at h
  generalize (if o.isAt i "global" && o.isAt (i + 1) "::" then i + 2 else i) = first at h
  split at h
  · rename_i hf
    rw [← Option.some.inj h]
    refine isHead_nullableEnd (ho.isHead_qualifiedEnd ?_)
    rcases Bool.or_eq_true_iff.1 hf with hf | hf
    · exact .inl (beq_iff_eq.1 hf)
    · exact isHead_of_isPredefined hf
  · cases h

theorem isHead_of_takesOperand {i : Nat} (h : o.takesOperand i = true) : o.IsHead i := by
  rw [takesOperand] at h
  split at h
  · rename_i hk
    exact .inr (.inl hk)
  · rename_i hk
    exact .inl hk
  · cases h

/-! ### Attributes -/

/-- What is known of an attribute with arguments: what ends its name, and what follows its arguments. -/
structure AttributeAt (o : Outline) (nameEnd opening : Nat) : Prop where
  next : opening = nameEnd + 1
  name : o.kind nameEnd = .identifier ∨ o.isAt nameEnd ">" = true
  paren : o.isAt opening "(" = true
  after : ∀ c, o.closing? opening = some c → o.isAt (c + 1) "," = true ∨ o.isAt (c + 1) "]" = true

theorem Sound.attributesFrom? (ho : o.Sound) (close : Nat) {i : Nat} {as : List (String × Option (Nat × Nat))}
    (h : o.attributesFrom? close i = some as) : ∀ a ∈ as, ∀ p, a.2 = some p → o.AttributeAt p.1 p.2 := by
  fun_induction Outline.attributesFrom? o close i generalizing as with
  | case1 => cases h
  | case2 i hid nameEnd name arguments next hp hcomma =>
    rename_i ih
    obtain ⟨rest, hrest, rfl⟩ := Option.map_eq_some_iff.1 h
    intro a ha p hap
    rcases List.mem_cons.1 ha with rfl | ha
    · dsimp only [arguments] at hap
      split at hap
      · rename_i hparen
        obtain rfl := Option.some.inj hap
        refine ⟨rfl, ho.attributeNameEnd hid, hparen, fun c hc => .inl ?_⟩
        rw [afterParens?, if_pos hparen, hc] at hp
        have hn : c + 1 = next := Option.some.inj hp
        exact hn ▸ hcomma
      · cases hap
    · exact ih hrest a ha p hap
  | case3 i hid nameEnd name arguments next hp hcomma =>
    rename_i hend
    obtain rfl := Option.some.inj h
    intro a ha p hap
    obtain rfl := List.mem_singleton.1 ha
    dsimp only [arguments] at hap
    split at hap
    · rename_i hparen
      obtain rfl := Option.some.inj hap
      refine ⟨rfl, ho.attributeNameEnd hid, hparen, fun c hc => .inr ?_⟩
      rw [afterParens?, if_pos hparen, hc] at hp
      have hn : c + 1 = next := Option.some.inj hp
      exact hn ▸ (Bool.and_eq_true_iff.1 hend).1
    · cases hap
  | case4 => cases h
  | case5 => cases h

theorem Sound.attributeListAt? (ho : o.Sound) {i : Nat} {l : AttributeList} (h : o.attributeListAt? i = some l) :
    ∀ p ∈ l.arguments, o.AttributeAt p.1 p.2 := by
  rw [Outline.attributeListAt?] at h
  obtain ⟨closing, -, h⟩ := Option.bind_eq_some_iff.1 h
  obtain ⟨as, has, h⟩ := Option.bind_eq_some_iff.1 h
  obtain rfl := Option.some.inj h
  intro p hp
  obtain ⟨a, ha, hap⟩ := List.mem_filterMap.1 hp
  exact ho.attributesFrom? closing has a ha p hap

theorem AttributeAt.isHead {nameEnd opening : Nat} (h : o.AttributeAt nameEnd opening) : o.IsHead nameEnd :=
  h.name.imp_right fun h => .inr (.inl h)

/-! ### Declarations -/

/-- What is known of a declaration with a parameter list. -/
structure DeclarationAt (o : Outline) (nameEnd opening : Nat) : Prop where
  next : opening = nameEnd + 1
  paren : o.isAt opening "(" = true
  form : o.isKeyword nameEnd "delegate" = true ∨ (o.IsHead nameEnd ∧
    ∃ c, o.closing? opening = some c ∧ o.isOneOf (c + 1) ["\x7b", ":", "=>", ";", "where"] = true)

theorem isOneOf_mono {ws ws' : List String} (h : ∀ w ∈ ws, w ∈ ws') {i : Nat} (hi : o.isOneOf i ws = true) :
    o.isOneOf i ws' = true := by
  rw [isOneOf, Document.isOneOf, List.contains_iff_mem] at hi ⊢
  exact h _ hi

theorem Sound.declarationAt? (ho : o.Sound) {s : Scopes} {listNames : Nat → Option (List String)} {i : Nat}
    {d : Declaration} (hi : 0 < i) (hparen : o.isAt i "(" = true) (h : o.declarationAt? s listNames i = some d) :
    d.opening = i ∧ o.DeclarationAt d.nameEnd d.opening := by
  have hnext : i = i - 1 + 1 := by omega
  rw [Outline.declarationAt?] at h
  split at h
  · rename_i hdel
    obtain rfl := Option.some.inj h
    exact ⟨rfl, hnext, hparen, .inl hdel⟩
  · obtain ⟨name, hname, h⟩ := Option.bind_eq_some_iff.1 h
    obtain ⟨close, hclose, h⟩ := Option.bind_eq_some_iff.1 h
    have hhead := ho.isHead_of_nameBefore? hname
    split at h
    · rename_i hc
      obtain rfl := Option.some.inj h
      rw [isConstructor, Bool.and_eq_true, Bool.and_eq_true] at hc
      exact ⟨rfl, hnext, hparen, .inr ⟨hhead, close, hclose, isOneOf_mono (by decide) hc.2.2⟩⟩
    · split at h
      · rename_i hc
        obtain ⟨start, -, h⟩ := Option.bind_eq_some_iff.1 h
        obtain rfl := Option.some.inj h
        rw [Bool.and_eq_true] at hc
        exact ⟨rfl, hnext, hparen, .inr ⟨hhead, close, hclose, isOneOf_mono (by decide) hc.2⟩⟩
      · cases h

theorem DeclarationAt.isHead {nameEnd opening : Nat} (h : o.DeclarationAt nameEnd opening) : o.IsHead nameEnd := by
  rcases h.form with h | h
  · exact isHead_of_isKeyword h
  · exact h.1

/-- What an attribute applies is no parameter list. -/
theorem AttributeAt.not_declarationAt {nameEnd nameEnd' opening : Nat} (h : o.AttributeAt nameEnd opening)
    (h' : o.DeclarationAt nameEnd' opening) : False := by
  have hname : nameEnd' = nameEnd := by
    have := h.next
    have := h'.next
    omega
  subst hname
  rcases h'.form with hdel | ⟨-, c, hc, hone⟩
  · rw [Outline.isKeyword, Document.isKeywordAt, Bool.and_eq_true, beq_iff_eq, beq_iff_eq] at hdel
    rcases h.name with hk | hw
    · exact absurd (hk.symm.trans hdel.1) (by decide)
    · exact absurd ((beq_iff_eq.1 hw).symm.trans hdel.2) (by decide)
  · rw [Outline.isOneOf, Document.isOneOf] at hone
    rcases h.after c hc with hw | hw
    · rw [show o.document.wordAt (c + 1) = "," from beq_iff_eq.1 hw] at hone
      exact absurd hone (by decide)
    · rw [show o.document.wordAt (c + 1) = "]" from beq_iff_eq.1 hw] at hone
      exact absurd hone (by decide)

/-! ### Families -/

theorem lt_size_of_lt_eof {i : Nat} (h : i < o.eof) : i < o.document.size := by
  rw [Outline.eof, Document.endOfFile] at h
  omega

/-- A parenthesis that is free is not among the ones that are claimed. -/
theorem not_mem_of_free {i : Nat} (h : i < o.eof) {ids : List Nat}
    (hfree : (!(TokenSet.ofList o.document.size ids).has i) = true) : i ∉ ids := by
  rw [Bool.not_eq_true', TokenSet.has_ofList, decide_eq_true (lt_size_of_lt_eof h), Bool.true_and] at hfree
  intro hi
  rw [List.contains_iff_mem.2 hi] at hfree
  cases hfree

theorem exists_of_mem_lists {p : Nat → Bool} {l : AttributeList}
    (hl : l ∈ o.ids.filterMap fun i => if p i then o.attributeListAt? i else none) :
    ∃ i, p i = true ∧ o.attributeListAt? i = some l := by
  obtain ⟨i, -, hi⟩ := List.mem_filterMap.1 hl
  split at hi
  · exact ⟨i, ‹_›, hi⟩
  · cases hi

theorem Sound.declarationAt_of_mem (ho : o.Sound) {s : Scopes} {listNames : Nat → Option (List String)}
    {claimed : TokenSet} {i : Nat} {d : Declaration} (h : (if 0 < i && o.isAt i "(" && !claimed.has i then
      o.declarationAt? s listNames i else none) = some d) :
    d.opening = i ∧ o.DeclarationAt d.nameEnd d.opening ∧ (!claimed.has i) = true := by
  split at h
  · rename_i hc
    rw [Bool.and_eq_true, Bool.and_eq_true, decide_eq_true_eq] at hc
    obtain ⟨hopen, hat⟩ := ho.declarationAt? hc.1.1 hc.1.2 h
    exact ⟨hopen, hat, hc.2⟩
  · cases h

/-- The gap of an operand is that behind its keyword. -/
theorem keywordExpression_of_mem (hs : o.document.Spelled) {claimed : List Nat} {i : Nat} {p : Nat × Nat}
    (h : (if o.isAt (i + 1) "(" && !(TokenSet.ofList o.document.size claimed).has (i + 1) && o.takesOperand i then
      some (i, i + 1) else none) = some p) :
    p = (i, i + 1) ∧ o.isAt p.2 "(" = true ∧ p.2 ∉ claimed ∧ o.IsHead i := by
  split at h
  · rename_i hc
    rw [Bool.and_eq_true, Bool.and_eq_true] at hc
    obtain rfl := Option.some.inj h
    have hfree := not_mem_of_free (lt_eof_of_isAt hs (by decide) hc.1.1) hc.1.2
    exact ⟨rfl, hc.1.1, hfree, isHead_of_takesOperand hc.2⟩
  · cases h

/-- The gap of a creation is that behind its type. -/
theorem objectCreation_of_mem (hs : o.document.Spelled) {claimed : List Nat} {i : Nat} {p : Nat × Nat}
    (h : (if o.isKeyword i "new" && !o.isOneOf (i + 1) ["(", "[", "\x7b"] then
      (o.typeNameEnd? (i + 1)).bind fun last =>
        if o.isAt (last + 1) "(" && !(TokenSet.ofList o.document.size claimed).has (last + 1) then
          some (last, last + 1) else none
      else none) = some p) :
    o.isKeyword i "new" = true ∧ ∃ last, o.typeNameEnd? (i + 1) = some last ∧ p = (last, last + 1) ∧
      o.isAt p.2 "(" = true ∧ p.2 ∉ claimed := by
  split at h
  · rename_i hnew
    rw [Bool.and_eq_true] at hnew
    obtain ⟨last, hlast, h⟩ := Option.bind_eq_some_iff.1 h
    split at h
    · rename_i hc
      rw [Bool.and_eq_true] at hc
      obtain rfl := Option.some.inj h
      exact ⟨hnew.1, last, hlast, rfl, hc.1, not_mem_of_free (lt_eof_of_isAt hs (by decide) hc.1) hc.2⟩
    · cases h
  · cases h

theorem gap?_usingStatements? {nodes : List SyntaxNode} (h : o.usingStatements? = some nodes) :
    ∀ n ∈ nodes, n.gap? = none := by
  intro n hn
  obtain ⟨⟨keyword, body⟩, -, hx⟩ := exists_of_mem_right (mapM_eq_some_iff.1 h) n hn
  obtain ⟨last, -, hx⟩ := Option.bind_eq_some_iff.1 hx
  obtain rfl := Option.some.inj hx
  rfl

theorem gap?_ifStatements? {roles : Array (Option OperatorRole)} {nodes : List SyntaxNode}
    (h : o.ifStatements? roles = some nodes) : ∀ n ∈ nodes, n.gap? = none := by
  intro n hn
  obtain ⟨⟨keyword, close⟩, -, hx⟩ := exists_of_mem_right (mapM_eq_some_iff.1 h) n hn
  obtain ⟨last, -, hx⟩ := Option.bind_eq_some_iff.1 hx
  obtain ⟨⟨stop, endsWithElse⟩, -, hx⟩ := Option.bind_eq_some_iff.1 hx
  obtain rfl := Option.some.inj hx
  rfl

theorem gap?_operatorNodes (roles : Array (Option OperatorRole)) : ∀ n ∈ operatorNodes roles, n.gap? = none := by
  intro n hn
  obtain ⟨⟨role, i⟩, -, hx⟩ := List.mem_filterMap.1 hn
  obtain ⟨role, -, rfl⟩ := Option.map_eq_some_iff.1 hx
  rfl

/-- The gap of a call is that of its parenthesis, which is free. -/
theorem Sound.invocations (ho : o.Sound) (hs : o.document.Spelled) {declared : TokenSet} {claimed : List Nat}
    {n : SyntaxNode} (hn : n ∈ o.invocations declared (TokenSet.ofList o.document.size claimed)) {c : GapContract}
    {left right : Nat} (hgap : n.gap? = some (c, left, right)) :
    o.Meets c left right ∧ c = .noWhitespace ∧ right ∉ claimed := by
  obtain ⟨i, hi, hn⟩ := List.mem_flatMap.1 hn
  split at hn
  · rename_i hc
    rw [Bool.and_eq_true, Bool.and_eq_true, decide_eq_true_eq] at hc
    have hnext : i = i - 1 + 1 := by omega
    rw [invocationAt] at hn
    split at hn
    · cases hn
    · rename_i name hname
      split at hn
      · cases hn
      · rcases List.mem_cons.1 hn with rfl | hn
        · obtain ⟨rfl, rfl, rfl⟩ : c = .noWhitespace ∧ left = i - 1 ∧ right = i := by
            cases hgap; exact ⟨rfl, rfl, rfl⟩
          refine ⟨?_, rfl, not_mem_of_free (List.mem_range.1 hi) hc.2⟩
          rw [hnext, Nat.add_sub_cancel]
          exact (ho.isHead_of_nameBefore? hname).meets hs (hnext ▸ hc.1.2) _
        · rw [Option.mem_toList] at hn
          obtain ⟨first, -, rfl⟩ := Option.map_eq_some_iff.1 hn
          cases hgap
  · cases hn

/-- The gap of a cast is behind its parenthesis. -/
theorem Sound.casts (ho : o.Sound) (hs : o.document.Spelled) {claimed : TokenSet} {closing operand : Nat}
    (h : (closing, operand) ∈ o.casts claimed) :
    o.Meets .noWhitespace closing operand ∧ o.isAt closing ")" = true := by
  obtain ⟨i, hi, h⟩ := List.mem_filterMap.1 h
  split at h
  · rename_i hc
    rw [Bool.and_eq_true, Bool.and_eq_true] at hc
    obtain ⟨close, hclose, h⟩ := Option.bind_eq_some_iff.1 h
    obtain ⟨last, -, h⟩ := Option.bind_eq_some_iff.1 h
    have hp := ho.isAt_closing? hclose hc.1.1
    dsimp only at h
    split at h
    · rename_i hop
      obtain ⟨rfl, rfl⟩ : close = closing ∧ close + 1 = operand := by simpa using h
      rw [Bool.and_eq_true] at hop
      have hk : o.kind close = .punctuation := hs.paren _ (beq_iff_eq.1 hp)
      refine ⟨⟨rfl, lt_eof_of_kind hs fun he => ?_, by rw [hk]; rfl, .inr ⟨rfl, hp⟩⟩, hp⟩
      rw [startsOperand, he] at hop
      exact absurd hop.2 Bool.false_ne_true
    · cases h
  · cases h

/-! ### Trees -/

/-- Where a node of a tree comes from that has the declarations `ds`: the families that are found after the declarations
leave their parentheses alone. -/
inductive Origin (o : Outline) (ds : List Declaration) : SyntaxNode → Prop
  | arguments {i : Nat} {l : AttributeList} {p : Nat × Nat} (list : o.attributeListAt? i = some l)
      (argument : p ∈ l.arguments) : Origin o ds (.attributeArguments p.1 p.2)
  | declaration {d : Declaration} {n : SyntaxNode} (mem : d ∈ ds) (node : n ∈ d.nodes) : Origin o ds n
  | keyword {claimed : List Nat} {p : Nat × Nat} (after : ds.map (·.opening) ⊆ claimed)
      (mem : p ∈ o.keywordExpressions (TokenSet.ofList o.document.size claimed)) :
      Origin o ds (.keywordExpression p.1 p.2)
  | creation {claimed : List Nat} {p : Nat × Nat} (after : ds.map (·.opening) ⊆ claimed)
      (mem : p ∈ o.objectCreations (TokenSet.ofList o.document.size claimed)) : Origin o ds (.objectCreation p.1 p.2)
  | invocation {declared : TokenSet} {claimed : List Nat} {n : SyntaxNode} (after : ds.map (·.opening) ⊆ claimed)
      (mem : n ∈ o.invocations declared (TokenSet.ofList o.document.size claimed)) : Origin o ds n
  | cast {claimed : TokenSet} {p : Nat × Nat} (mem : p ∈ o.casts claimed) : Origin o ds (.castExpression p.1 p.2)
  | operator {scopes : Scopes} {declared : TokenSet} {n : SyntaxNode}
      (mem : n ∈ operatorNodes (o.operatorRoles scopes declared)) : Origin o ds n
  | usings {nodes : List SyntaxNode} {n : SyntaxNode} (found : o.usingStatements? = some nodes) (mem : n ∈ nodes) :
      Origin o ds n
  | ifs {roles : Array (Option OperatorRole)} {nodes : List SyntaxNode} {n : SyntaxNode}
      (found : o.ifStatements? roles = some nodes) (mem : n ∈ nodes) : Origin o ds n

theorem Origin.attributes {ds : List Declaration} {lists : List AttributeList}
    (hlists : ∀ l ∈ lists, ∃ i, o.attributeListAt? i = some l) {n : SyntaxNode}
    (hn : n ∈ lists.flatMap AttributeList.nodes) : o.Origin ds n := by
  obtain ⟨l, hl, hn⟩ := List.mem_flatMap.1 hn
  obtain ⟨p, hp, rfl⟩ := List.mem_map.1 hn
  obtain ⟨i, hi⟩ := hlists l hl
  exact .arguments hi hp

/-- **Where the nodes of a tree come from.** -/
theorem origin_of_tree? {t : SyntaxTree} (h : o.tree? = some t) :
    ∃ scopes listNames claimed, ∀ n ∈ t.nodes, o.Origin (o.declarations scopes listNames claimed) n := by
  unfold tree? at h
  extract_lets size scopes attributeLists listNames attributeNodes attributeOpens declarations declarationOpens declared
    parameterLists parameterOpens claimed keywordOperands claimed₁ creations claimed₂ invocations claimed₃ casts
    roles at h
  obtain ⟨usings, husings, h⟩ := Option.bind_eq_some_iff.1 h
  obtain ⟨ifs, hifs, h⟩ := Option.bind_eq_some_iff.1 h
  obtain rfl := Option.some.inj h
  have hsub : declarationOpens ⊆ claimed := fun i hi => List.mem_append_left _ (List.mem_append_right _ hi)
  have hsub₁ : declarationOpens ⊆ claimed₁ := fun i hi => List.mem_append_left _ (hsub hi)
  have hsub₂ : declarationOpens ⊆ claimed₂ := fun i hi => List.mem_append_left _ (hsub₁ hi)
  refine ⟨scopes, fun i => listNames.getD i none, TokenSet.ofList size attributeOpens, fun n hn => ?_⟩
  rw [SyntaxTree.ofNodes, List.mem_mergeSort] at hn
  simp only [List.mem_append] at hn
  rcases hn with (((((((((hn | hn) | hn) | hn) | hn) | hn) | hn) | hn) | hn) | hn)
  · refine .attributes (fun l hl => ?_) hn
    obtain ⟨i, -, hi⟩ := exists_of_mem_lists hl
    exact ⟨i, hi⟩
  · obtain ⟨d, hd, hn⟩ := List.mem_flatMap.1 hn
    exact .declaration hd hn
  · refine .attributes (fun l hl => ?_) hn
    obtain ⟨i, -, hi⟩ := exists_of_mem_lists hl
    exact ⟨i, hi⟩
  · obtain ⟨p, hp, rfl⟩ := List.mem_map.1 hn
    exact .keyword hsub hp
  · obtain ⟨p, hp, rfl⟩ := List.mem_map.1 hn
    exact .creation hsub₁ hp
  · exact .invocation hsub₂ hn
  · obtain ⟨p, hp, rfl⟩ := List.mem_map.1 hn
    exact .cast hp
  · exact .operator hn
  · exact .usings husings hn
  · exact .ifs hifs hn

/-- **The gaps of a tree.** Those that should hold a space are the ones of declarations. -/
theorem gaps_of_tree? (ho : o.Sound) (hs : o.document.Spelled) {t : SyntaxTree} (h : o.tree? = some t) :
    ∃ opens : List Nat, ∀ n ∈ t.nodes, ∀ c left right, n.gap? = some (c, left, right) →
      o.Meets c left right ∧ (c = .singleSpace ↔ right ∈ opens) := by
  obtain ⟨scopes, listNames, claimed, horigin⟩ := origin_of_tree? h
  have hdecl : ∀ d ∈ o.declarations scopes listNames claimed, o.DeclarationAt d.nameEnd d.opening := by
    intro d hd
    obtain ⟨i, -, hd⟩ := List.mem_filterMap.1 hd
    exact (ho.declarationAt_of_mem hd).2.1
  -- A gap that should hold nothing is all right where it is not that of a declaration.
  have hclosed : ∀ {left right : Nat}, o.Meets .noWhitespace left right →
      (right ∉ (o.declarations scopes listNames claimed).map (·.opening)) →
      o.Meets .noWhitespace left right ∧
        (GapContract.noWhitespace = .singleSpace ↔ right ∈ (o.declarations scopes listNames claimed).map (·.opening)) :=
    fun hm hnot => ⟨hm, iff_of_false (by decide) hnot⟩
  refine ⟨(o.declarations scopes listNames claimed).map (·.opening), fun n hn c left right hgap => ?_⟩
  cases horigin n hn with
  | arguments hlist hp =>
    cases hgap
    have hat := ho.attributeListAt? hlist _ hp
    refine hclosed (hat.next ▸ hat.isHead.meets hs (hat.next ▸ hat.paren) _) fun hmem => ?_
    obtain ⟨d, hd, heq⟩ := List.mem_map.1 hmem
    exact hat.not_declarationAt (heq ▸ hdecl d hd)
  | declaration hd hn =>
    rcases List.mem_cons.1 hn with rfl | hn
    · cases hgap
      have hat := hdecl _ hd
      exact ⟨hat.next ▸ hat.isHead.meets hs (hat.next ▸ hat.paren) _, iff_of_true rfl (List.mem_map_of_mem hd)⟩
    · rw [Option.mem_toList] at hn
      obtain ⟨m, -, rfl⟩ := Option.map_eq_some_iff.1 hn
      cases hgap
  | keyword hsub hp =>
    cases hgap
    obtain ⟨i, -, hp⟩ := List.mem_filterMap.1 hp
    obtain ⟨rfl, hparen, hfree, hhead⟩ := keywordExpression_of_mem hs hp
    exact hclosed (hhead.meets hs hparen _) fun hmem => hfree (hsub hmem)
  | creation hsub hp =>
    cases hgap
    obtain ⟨i, -, hp⟩ := List.mem_filterMap.1 hp
    obtain ⟨-, last, hlast, rfl, hparen, hfree⟩ := objectCreation_of_mem hs hp
    exact hclosed ((ho.isHead_of_typeNameEnd? hlast).meets hs hparen _) fun hmem => hfree (hsub hmem)
  | invocation hsub hn =>
    obtain ⟨hm, rfl, hfree⟩ := ho.invocations hs hn hgap
    exact hclosed hm fun hmem => hfree (hsub hmem)
  | cast hp =>
    cases hgap
    obtain ⟨hm, hparen⟩ := ho.casts hs hp
    refine hclosed hm fun hmem => ?_
    obtain ⟨d, hd, heq⟩ := List.mem_map.1 hmem
    have hat := hdecl d hd
    have hname : d.nameEnd = _ := Nat.succ.inj ((hat.next.symm.trans heq).trans hm.next)
    rw [← hname, hat.isHead.not_paren hs] at hparen
    cases hparen
  | operator hn =>
    rw [gap?_operatorNodes _ n hn] at hgap
    cases hgap
  | usings hfound hn =>
    rw [gap?_usingStatements? hfound n hn] at hgap
    cases hgap
  | ifs hfound hn =>
    rw [gap?_ifStatements? hfound n hn] at hgap
    cases hgap

end Outline

end LayoutLint
