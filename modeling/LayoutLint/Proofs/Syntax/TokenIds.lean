import LayoutLint.Proofs.Layout.Programs
import LayoutLint.Proofs.Syntax.Claims
import LayoutLint.Proofs.Syntax.StatementEnds
/-!
# TokenIds — the tokens that nodes name

Every number in a node is that of a token of the document (`Sound.tokens_lt`): what is looked for forwards is found at a
token, partners of brackets are tokens, and what is looked for backwards is found in front. With the gaps of a tree this
says that a tree is well formed (`Program.gaps_of_parse`). Where a node goes over a range of tokens it does not end in
front of where it starts (`Sound.extent_le`): calls of members never do, and statements only where a closing bracket
stands in place of a block or a condition.
-/
namespace LayoutLint

/-- The tokens that a node names. -/
def SyntaxNode.tokens : SyntaxNode → List Nat
  | parameterList _ name opening => [name, opening]
  | invocation callee opening => [callee, opening]
  | objectCreation typeEnd opening => [typeEnd, opening]
  | keywordExpression keyword opening => [keyword, opening]
  | castExpression closing operand => [closing, operand]
  | attributeArguments nameEnd opening => [nameEnd, opening]
  | usingStatement keyword body _ => [keyword, body.first, body.last]
  | ifStatement extent _ bodyFirst _ => [extent.first, extent.last, bodyFirst]
  | operator token _ => [token]
  | method m => m.name :: m.body.toList.flatMap fun body => [body.first, body.last]
  | memberInvocation receiver name opening closing => [receiver.first, receiver.last, name, opening, closing]

/-- The first and the last token of what a node that has an extent goes over. -/
def SyntaxNode.extent? : SyntaxNode → Option (Nat × Nat)
  | usingStatement _ body _ => some (body.first, body.last)
  | ifStatement extent _ _ _ => some (extent.first, extent.last)
  | memberInvocation receiver _ _ closing => some (receiver.first, closing)
  | _ => none

/-- The tokens of the gap that a node is about are all that the node names. -/
theorem SyntaxNode.tokens_of_gap? {n : SyntaxNode} {k : GapContract} {left right : Nat}
    (h : n.gap? = some (k, left, right)) : n.tokens = [left, right] := by
  cases n <;> simp only [gap?, Option.some.injEq, Prod.mk.injEq, reduceCtorEq] at h
  all_goals
    obtain ⟨-, rfl, rfl⟩ := h
    rfl

namespace Outline

variable {o : Outline}

/-! ### Statements, operators and calls -/

theorem Sound.usingStatements_lt (ho : o.Sound) {nodes : List SyntaxNode} (h : o.usingStatements? = some nodes) :
    ∀ n ∈ nodes, ∀ i ∈ n.tokens, i < o.document.size := by
  intro n hn
  obtain ⟨keyword, body, last, kind, rfl, hkeyword, hbody, hends⟩ := mem_usingStatements? h hn
  simp only [SyntaxNode.tokens, List.forall_mem_cons]
  exact ⟨lt_size_of_lt_eof hkeyword, lt_size_of_lt_eof hbody, hends.lt ho, fun _ h => absurd h List.not_mem_nil⟩

theorem Sound.ifStatements_lt (ho : o.Sound) {roles : Array (Option OperatorRole)} {nodes : List SyntaxNode}
    (h : o.ifStatements? roles = some nodes) : ∀ n ∈ nodes, ∀ i ∈ n.tokens, i < o.document.size := by
  intro n hn
  obtain ⟨keyword, last, _, bodyFirst, _, rfl, hkeyword, hbody, hends⟩ := mem_ifStatements? h hn
  simp only [SyntaxNode.tokens, List.forall_mem_cons]
  exact ⟨lt_size_of_lt_eof hkeyword, hends.lt ho, hbody, fun _ h => absurd h List.not_mem_nil⟩

/-- Each token that is read gets a role, or none. -/
theorem size_roles_step (scopes : Scopes) (declared : TokenSet) (s : OperatorScan) (i : Nat) :
    (OperatorScan.step o scopes declared s i).roles.size = s.roles.size + 1 := by
  have hread : ∀ s : OperatorScan, (OperatorScan.readOperator o scopes declared s i).roles.size = s.roles.size + 1 := by
    intro s
    rw [OperatorScan.readOperator]
    repeat' split
    all_goals simp only [OperatorScan.push, Array.size_push]
  rw [OperatorScan.step]
  split
  · simp only [OperatorScan.push, Array.size_push]
  split
  · simp only [OperatorScan.push, OperatorScan.closeBracket, Array.size_push]
  split
  · simp only [OperatorScan.push, OperatorScan.endStatement, Array.size_push]
  · rw [hread]
    split <;> rfl

theorem size_operatorRoles (scopes : Scopes) (declared : TokenSet) :
    (o.operatorRoles scopes declared).size = o.eof := by
  have key : ∀ (ids : List Nat) (s : OperatorScan),
      (ids.foldl (OperatorScan.step o scopes declared) s).roles.size = s.roles.size + ids.length := by
    intro ids
    induction ids with
    | nil => exact fun _ => rfl
    | cons i ids ih =>
      intro s
      rw [List.foldl_cons, ih, size_roles_step, List.length_cons]
      omega
  rw [operatorRoles, key, ids, List.length_range]
  exact Nat.zero_add _

theorem operatorNodes_lt (scopes : Scopes) (declared : TokenSet) :
    ∀ n ∈ operatorNodes (o.operatorRoles scopes declared), ∀ i ∈ n.tokens, i < o.document.size := by
  intro n hn i hi
  obtain ⟨⟨role, j⟩, hj, hn⟩ := List.mem_filterMap.1 hn
  obtain ⟨role, -, rfl⟩ := Option.map_eq_some_iff.1 hn
  obtain rfl := List.mem_singleton.1 hi
  have := (List.mem_zipIdx hj).2.1
  rw [Array.length_toList, size_operatorRoles] at this
  exact lt_size_of_lt_eof (by omega)

theorem receiverStepFrom_le {first j : Nat} (h : o.receiverStepFrom first = .start j) : j ≤ first := by
  have hle : o.creationStart first ≤ first := by unfold creationStart; split <;> omega
  simp only [receiverStepFrom] at h
  split at h
  · cases h
  · cases h
    exact hle

/-- A receiver starts in front of where it ends. -/
theorem receiverStart?_le {i first : Nat} (h : o.receiverStart? i = some first) : first ≤ i := by
  fun_induction receiverStart? o i with
  | case1 i j hj ih =>
    have := receiverStep?_lt hj
    have := ih h
    omega
  | case2 i start hstart =>
    cases h
    rw [receiverStep?] at hstart
    split at hstart
    · split at hstart <;> cases hstart
    · split at hstart
      · split at hstart
        · rename_i b hb
          have := Brackets.lt_of_opening? hb
          split at hstart
          · cases hstart
          · have := receiverStepFrom_le (Option.some.inj hstart)
            omega
        · cases hstart
      · split at hstart
        · split at hstart <;> cases hstart
        · split at hstart
          · exact receiverStepFrom_le (Option.some.inj hstart)
          · cases hstart
  | case3 => cases h

theorem nameBefore?_le {i name : Nat} (h : o.nameBefore? i = some name) : name ≤ i := by
  rw [nameBefore?] at h
  split at h
  · rename_i start hs
    have := lt_of_typeArgsStart? hs
    split at h
    · cases h
      omega
    · cases h
  · split at h
    · cases h
      exact Nat.le_refl _
    · cases h

theorem Sound.invocations_lt (ho : o.Sound) (declared claimed : TokenSet) :
    ∀ n ∈ o.invocations declared claimed, ∀ i ∈ n.tokens, i < o.document.size := by
  intro n hn
  obtain ⟨i, hi, hn⟩ := List.mem_flatMap.1 hn
  have hi := lt_size_of_lt_eof (List.mem_range.1 hi)
  split at hn
  · rcases mem_invocationAt hn with rfl | ⟨first, name, hname, -, hfirst, rfl⟩
    · simp only [SyntaxNode.tokens, List.forall_mem_cons]
      exact ⟨by omega, hi, fun _ h => absurd h List.not_mem_nil⟩
    · have := nameBefore?_le hname
      have := receiverStart?_le hfirst
      simp only [SyntaxNode.tokens, List.forall_mem_cons]
      refine ⟨by omega, by omega, by omega, hi, ?_, fun _ h => absurd h List.not_mem_nil⟩
      cases hc : o.closing? i with
      | none => exact hi
      | some c => exact ho.closing_lt hc
  · cases hn

/-- The call of a member starts in front of its parenthesis, and ends at it or behind it. -/
theorem extent_of_mem_invocations {declared claimed : TokenSet} {n : SyntaxNode}
    (hn : n ∈ o.invocations declared claimed) {first last : Nat} (hext : n.extent? = some (first, last)) :
    first ≤ last ∧ first < o.eof := by
  obtain ⟨i, hi, hn⟩ := List.mem_flatMap.1 hn
  have hi := List.mem_range.1 hi
  split at hn
  · rcases mem_invocationAt hn with rfl | ⟨first', name, hname, -, hfirst, rfl⟩
    · cases hext
    · have := nameBefore?_le hname
      have := receiverStart?_le hfirst
      have hclosing : i ≤ (o.closing? i).getD i := by
        cases hc : o.closing? i with
        | none => exact Nat.le_refl _
        | some c => exact Nat.le_of_lt (Brackets.lt_of_closing? hc)
      cases hext
      constructor
      · show first' ≤ _
        omega
      · show first' < _
        omega
  · cases hn

/-! ### Declarations -/

theorem Sound.methodBody?_lt (ho : o.Sound) {i : Nat} {r : TokenRange} (h : o.methodBody? i = some r) :
    r.first < o.document.size ∧ r.last < o.document.size := by
  rw [methodBody?] at h
  split at h
  · rename_i j hj
    have hlt := lt_size_of_lt_eof (lt_of_walk hj).2
    split at h
    · obtain ⟨close, hclose, rfl⟩ := Option.map_eq_some_iff.1 h
      exact ⟨hlt, ho.closing_lt hclose⟩
    · split at h
      · cases h
        exact ⟨hlt, o.expressionEnd_lt _⟩
      · cases h
  · cases h
  · cases h

theorem Sound.method_lt (ho : o.Sound) {s : Scopes} {listNames : Nat → Option (List String)} {i : Nat} {d : Declaration}
    (hi : i < o.document.size) (h : o.declarationAt? s listNames i = some d) {m : MethodDeclaration}
    (hm : d.method = some m) : ∀ k ∈ (SyntaxNode.method m).tokens, k < o.document.size := by
  rw [Outline.declarationAt?] at h
  split at h
  · cases h
    cases hm
  · obtain ⟨name, hname, h⟩ := Option.bind_eq_some_iff.1 h
    obtain ⟨close, hclose, h⟩ := Option.bind_eq_some_iff.1 h
    split at h
    · cases h
      cases hm
    · split at h
      · obtain ⟨start, -, h⟩ := Option.bind_eq_some_iff.1 h
        obtain rfl := Option.some.inj h
        dsimp only at hm
        generalize (if 0 < start && o.isKeyword (start - 1) "delegate" then DeclarationKind.delegate
          else if o.inTypeBody s name then .method else .localFunction) = kind at hm
        split at hm
        · obtain rfl := Option.some.inj hm
          have := nameBefore?_le hname
          simp only [SyntaxNode.tokens, List.forall_mem_cons]
          refine ⟨by omega, fun k hk => ?_⟩
          obtain ⟨r, hr, hk⟩ := List.mem_flatMap.1 hk
          obtain ⟨h₁, h₂⟩ := ho.methodBody?_lt (Option.mem_toList.1 hr)
          rcases List.mem_cons.1 hk with rfl | hk
          · exact h₁
          · obtain rfl := List.mem_singleton.1 hk
            exact h₂
        · cases hm
      · cases h

theorem Sound.declarations_lt (ho : o.Sound) (s : Scopes) (listNames : Nat → Option (List String))
    (claimed : TokenSet) :
    ∀ d ∈ o.declarations s listNames claimed, ∀ n ∈ d.nodes, n.gap? = none → ∀ i ∈ n.tokens, i < o.document.size := by
  intro d hd n hn hgap
  obtain ⟨i, hi, hd⟩ := List.mem_filterMap.1 hd
  split at hd
  · rcases List.mem_cons.1 hn with rfl | hn
    · cases hgap
    · rw [Option.mem_toList] at hn
      obtain ⟨m, hm, rfl⟩ := Option.map_eq_some_iff.1 hn
      exact ho.method_lt (lt_size_of_lt_eof (List.mem_range.1 hi)) hd hm
  · cases hd

/-! ### Trees -/

/-- Where the nodes of a tree come from that are about no gap. -/
theorem cases_of_tree? {t : SyntaxTree} (h : o.tree? = some t) {n : SyntaxNode} (hn : n ∈ t.nodes)
    (hgap : n.gap? = none) :
    (∃ scopes listNames claimed, ∃ d ∈ o.declarations scopes listNames claimed, n ∈ d.nodes) ∨
      (∃ declared claimed, n ∈ o.invocations declared claimed) ∨
      (∃ scopes declared, n ∈ operatorNodes (o.operatorRoles scopes declared)) ∨
      (∃ nodes, o.usingStatements? = some nodes ∧ n ∈ nodes) ∨
      ∃ roles nodes, o.ifStatements? roles = some nodes ∧ n ∈ nodes := by
  unfold tree? at h
  extract_lets size scopes attributeLists listNames attributeNodes attributeOpens declarations declarationOpens declared
    parameterLists parameterOpens claimed keywordOperands claimed₁ creations claimed₂ invocations claimed₃ casts
    roles at h
  obtain ⟨usings, husings, h⟩ := Option.bind_eq_some_iff.1 h
  obtain ⟨ifs, hifs, h⟩ := Option.bind_eq_some_iff.1 h
  obtain rfl := Option.some.inj h
  rw [SyntaxTree.ofNodes, List.mem_mergeSort] at hn
  have hnone : ∀ {f : Nat × Nat → SyntaxNode} {l : List (Nat × Nat)}, n ∈ l.map f → ∃ p, (f p).gap? = none := by
    intro f l hn
    obtain ⟨p, -, rfl⟩ := List.mem_map.1 hn
    exact ⟨p, hgap⟩
  have hlists : ∀ lists : List AttributeList, n ∉ lists.flatMap AttributeList.nodes := by
    intro lists hn
    obtain ⟨l, -, hn⟩ := List.mem_flatMap.1 hn
    obtain ⟨p, hp⟩ := hnone hn
    cases hp
  simp only [List.mem_append] at hn
  rcases hn with (((((((((hn | hn) | hn) | hn) | hn) | hn) | hn) | hn) | hn) | hn)
  · exact absurd hn (hlists _)
  · obtain ⟨d, hd, hn⟩ := List.mem_flatMap.1 hn
    exact .inl ⟨_, _, _, d, hd, hn⟩
  · exact absurd hn (hlists _)
  · obtain ⟨p, hp⟩ := hnone hn
    cases hp
  · obtain ⟨p, hp⟩ := hnone hn
    cases hp
  · exact .inr (.inl ⟨_, _, hn⟩)
  · obtain ⟨p, hp⟩ := hnone hn
    cases hp
  · exact .inr (.inr (.inl ⟨_, _, hn⟩))
  · exact .inr (.inr (.inr (.inl ⟨_, husings, hn⟩)))
  · exact .inr (.inr (.inr (.inr ⟨_, _, hifs, hn⟩)))

/-- **The nodes of a tree name tokens.** -/
theorem Sound.tokens_lt (ho : o.Sound) (hs : o.document.Spelled) {t : SyntaxTree} (h : o.tree? = some t) :
    ∀ n ∈ t.nodes, ∀ i ∈ n.tokens, i < o.document.size := by
  obtain ⟨opens, hopens⟩ := gaps_of_tree? ho hs h
  intro n hn
  cases hgap : n.gap? with
  | some g =>
    obtain ⟨k, left, right⟩ := g
    have hm := (hopens n hn k left right hgap).1
    have hright := lt_size_of_lt_eof hm.inside
    have hnext := hm.next
    rw [SyntaxNode.tokens_of_gap? hgap]
    simp only [List.forall_mem_cons]
    exact ⟨by omega, hright, fun _ h => absurd h List.not_mem_nil⟩
  | none =>
    rcases cases_of_tree? h hn hgap with ⟨_, _, _, d, hd, hn⟩ | ⟨_, _, hn⟩ | ⟨_, _, hn⟩ | ⟨_, husings, hn⟩ |
      ⟨_, _, hifs, hn⟩
    · exact ho.declarations_lt _ _ _ d hd n hn hgap
    · exact ho.invocations_lt _ _ n hn
    · exact operatorNodes_lt _ _ n hn
    · exact ho.usingStatements_lt husings n hn
    · exact ho.ifStatements_lt hifs n hn

/-- **Nodes do not end in front of where they start**, but for statements with a `try` or `while` that a closing
bracket follows. -/
theorem Sound.extent_le (ho : o.Sound) {t : SyntaxTree} (h : o.tree? = some t) {n : SyntaxNode} (hn : n ∈ t.nodes)
    (hopen : n.kind = .memberInvocation ∨ o.document.HeadsOpen) {first last : Nat}
    (hext : n.extent? = some (first, last)) :
    first ≤ last := by
  have hgap : n.gap? = none := by
    cases n <;> first | rfl | cases hext
  rcases cases_of_tree? h hn hgap with ⟨_, _, _, d, -, hn⟩ | ⟨_, _, hn⟩ | ⟨_, _, hn⟩ | ⟨_, husings, hn⟩ |
    ⟨_, _, hifs, hn⟩
  · rcases List.mem_cons.1 hn with rfl | hn
    · cases hext
    · rw [Option.mem_toList] at hn
      obtain ⟨m, -, rfl⟩ := Option.map_eq_some_iff.1 hn
      cases hext
  · exact (extent_of_mem_invocations hn hext).1
  · obtain ⟨⟨role, i⟩, -, hn⟩ := List.mem_filterMap.1 hn
    obtain ⟨role, -, rfl⟩ := Option.map_eq_some_iff.1 hn
    cases hext
  · obtain ⟨keyword, body, last', kind, rfl, -, hbody, hends⟩ := mem_usingStatements? husings hn
    have hmin := hends.min_le ho (hopen.resolve_left fun h => by cases h)
    cases hext
    rw [lastReal] at hmin
    show body ≤ last'
    omega
  · obtain ⟨keyword, last', _, _, _, rfl, hkeyword, -, hends⟩ := mem_ifStatements? hifs hn
    have hmin := hends.min_le ho (hopen.resolve_left fun h => by cases h)
    cases hext
    rw [lastReal] at hmin
    show keyword ≤ last'
    omega

/-- The calls of members come from the invocations. -/
theorem mem_invocations_of_tree? {t : SyntaxTree} (h : o.tree? = some t) {n : SyntaxNode} (hn : n ∈ t.nodes)
    (hkind : n.kind = .memberInvocation) : ∃ declared claimed, n ∈ o.invocations declared claimed := by
  have hgap : n.gap? = none := by
    cases n <;> first | rfl | cases hkind
  rcases cases_of_tree? h hn hgap with ⟨_, _, _, d, -, hn⟩ | ⟨declared, claimed, hn⟩ | ⟨_, _, hn⟩ | ⟨_, husings, hn⟩ |
    ⟨_, _, hifs, hn⟩
  · rcases List.mem_cons.1 hn with rfl | hn
    · cases hkind
    · rw [Option.mem_toList] at hn
      obtain ⟨m, -, rfl⟩ := Option.map_eq_some_iff.1 hn
      cases hkind
  · exact ⟨declared, claimed, hn⟩
  · obtain ⟨⟨role, i⟩, -, hn⟩ := List.mem_filterMap.1 hn
    obtain ⟨role, -, rfl⟩ := Option.map_eq_some_iff.1 hn
    cases hkind
  · obtain ⟨_, _, _, _, rfl, -⟩ := mem_usingStatements? husings hn
    cases hkind
  · obtain ⟨_, _, _, _, _, rfl, -⟩ := mem_ifStatements? hifs hn
    cases hkind

end Outline

/-- **The tree of a text is well formed**: its nodes name tokens; the gaps that they are about stand between two tokens
that follow one another, neither of them the one that closes the document; and no two nodes are about one gap. -/
theorem Program.gaps_of_parse {s : String} {p : Program} (h : Program.parse s = .ok p) :
    (∀ n ∈ p.tree.nodes, ∀ i ∈ n.tokens, i < p.document.size) ∧
    (∀ n ∈ p.tree.nodes, ∀ k left right, n.gap? = some (k, left, right) →
      right = left + 1 ∧ left < p.document.endOfFile ∧ right < p.document.endOfFile) ∧
    (gapRights p.tree.nodes).Nodup := by
  obtain ⟨-, hdoc, htree⟩ := Program.parse_eq_ok_iff.1 h
  obtain ⟨hd, -⟩ := Document.parsed_of_ofSource hdoc
  have ho := Outline.sound_ofDocument p.document
  obtain ⟨opens, hopens⟩ := Outline.gaps_of_tree? ho hd.spelled htree
  refine ⟨ho.tokens_lt hd.spelled htree, fun n hn k left right hgap => ?_, ho.nodup_gapRights hd.spelled htree⟩
  have hm := (hopens n hn k left right hgap).1
  have hnext := hm.next
  have hinside : right < p.document.endOfFile := hm.inside
  exact ⟨hnext, by omega, hinside⟩

/-- A call is about the gap in front of its parenthesis. -/
theorem Program.gaps_of_parse_call : ∃ p, Program.parse "f (x)" = .ok p ∧ p.document.size = 5 ∧
    p.tree.nodes = [.invocation 0 1] ∧ (∀ n ∈ p.tree.nodes, ∀ i ∈ n.tokens, i < p.document.size) ∧
    (gapRights p.tree.nodes).Nodup := by
  obtain ⟨p, hp, h⟩ := exists_ok_of_any (e := Program.parse "f (x)")
    (p := fun p => decide (p.document.size = 5 ∧ p.tree.nodes = [.invocation 0 1])) (by decide +kernel)
  obtain ⟨hsize, hnodes⟩ := of_decide_eq_true h
  obtain ⟨htokens, -, hnodup⟩ := Program.gaps_of_parse hp
  exact ⟨p, hp, hsize, hnodes, htokens, hnodup⟩

end LayoutLint
