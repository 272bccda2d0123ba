import LayoutLint.Analysis
import LayoutLint.Batch
import LayoutLint.Proofs.Fallible
import LayoutLint.Proofs.Sorting
import LayoutLint.Proofs.Syntax.NodeGaps
import Mathlib.Data.List.Nodup
/-!
# Reports — what an analysis lists

An analysis lists what the rules of the registry report, each violation with the severity of its rule (`mem_analyze`),
and it does not fail unless it is called off. A violation is mended by the rule that reported it, which its id tells
from all others (`editFor?_eq`).
-/
namespace LayoutLint

/-- What a rule reports, before it gets the severity that the registry gives. -/
def Rule.Reports (r : Rule) (c : RuleContext) (w : Violation) : Prop :=
  (∃ node ∈ c.tree.nodes, r.nodeKinds.contains node.kind = true ∧ w ∈ r.checkNode c node) ∨
    (r.nodeKinds = [] ∧ ∃ ws, r.checkDocument c = .ok ws ∧ w ∈ ws)

namespace Registry

variable {R : Registry} {c : RuleContext}

theorem mem_checkNodes {v : Violation} : v ∈ R.checkNodes c ↔ ∃ a ∈ R.rules, ∃ node ∈ c.tree.nodes,
    a.rule.nodeKinds.contains node.kind = true ∧
      ∃ w ∈ a.rule.checkNode c node, v = { w with severity := a.severity } := by
  simp only [checkNodes, List.mem_flatMap, nodeRules, List.mem_filter, ActiveRule.report, List.mem_map]
  constructor
  · rintro ⟨node, hn, a, ⟨ha, hk⟩, w, hw, rfl⟩
    exact ⟨a, ha, node, hn, hk, w, hw, rfl⟩
  · rintro ⟨a, ha, node, hn, hk, w, hw, rfl⟩
    exact ⟨node, hn, a, ⟨ha, hk⟩, w, hw, rfl⟩

theorem mem_checkDocument {found : List Violation} (h : R.checkDocument c = .ok found) {v : Violation} :
    v ∈ found ↔ ∃ a ∈ R.rules, a.rule.nodeKinds = [] ∧ ∃ ws, a.rule.checkDocument c = .ok ws ∧
      ∃ w ∈ ws, v = { w with severity := a.severity } := by
  obtain ⟨lists, hlists, h⟩ := bind_eq_ok_iff.1 h
  obtain rfl := Except.ok.inj h
  have hlists := mapM_eq_ok_iff.1 hlists
  rw [List.mem_flatten]
  constructor
  · rintro ⟨l, hl, hv⟩
    obtain ⟨a, ha, hal⟩ := exists_of_mem_right hlists l hl
    obtain ⟨ws, hws, rfl⟩ := map_eq_ok_iff.1 hal
    obtain ⟨ha, hkinds⟩ := List.mem_filter.1 ha
    obtain ⟨w, hw, rfl⟩ := List.mem_map.1 hv
    exact ⟨a, ha, List.isEmpty_iff.1 hkinds, ws, hws, w, hw, rfl⟩
  · rintro ⟨a, ha, hkinds, ws, hws, w, hw, rfl⟩
    obtain ⟨l, hl, hal⟩ := exists_of_mem_left hlists a (List.mem_filter.2 ⟨ha, List.isEmpty_iff.2 hkinds⟩)
    obtain ⟨ws', hws', rfl⟩ := map_eq_ok_iff.1 hal
    obtain rfl := Except.ok.inj (hws.symm.trans hws')
    exact ⟨_, hl, List.mem_map.2 ⟨w, hw, rfl⟩⟩

/-- An analysis lists what is found, in order. -/
theorem exists_of_analyze {vs : List Violation} (h : R.analyze c = .ok vs) : ∃ found, R.checkDocument c = .ok found ∧
    vs = ((R.checkNodes c ++ found).mergeSort Violation.le).eraseReps := by
  rw [analyze] at h
  have hrest : ∀ u : PUnit, (do
      let found := R.checkNodes c ++ (← R.checkDocument c)
      return (found.mergeSort Violation.le).eraseReps : Except Failure (List Violation)) = .ok vs →
      ∃ found, R.checkDocument c = .ok found ∧
        vs = ((R.checkNodes c ++ found).mergeSort Violation.le).eraseReps := by
    intro _ h
    obtain ⟨found, hfound, h⟩ := bind_eq_ok_iff.1 h
    exact ⟨found, hfound, (Except.ok.inj h).symm⟩
  split at h
  · obtain ⟨u, -, h⟩ := bind_eq_ok_iff.1 h
    exact hrest u h
  · exact hrest () h

/-- **What an analysis lists.** -/
theorem mem_analyze {vs : List Violation} (h : R.analyze c = .ok vs) {v : Violation} :
    v ∈ vs ↔ ∃ a ∈ R.rules, ∃ w, a.rule.Reports c w ∧ v = { w with severity := a.severity } := by
  obtain ⟨found, hfound, rfl⟩ := exists_of_analyze h
  rw [mem_eraseReps, List.mem_mergeSort, List.mem_append, mem_checkNodes, mem_checkDocument hfound]
  constructor
  · rintro (⟨a, ha, node, hn, hk, w, hw, rfl⟩ | ⟨a, ha, hk, ws, hws, w, hw, rfl⟩)
    · exact ⟨a, ha, w, .inl ⟨node, hn, hk, hw⟩, rfl⟩
    · exact ⟨a, ha, w, .inr ⟨hk, ws, hws, hw⟩, rfl⟩
  · rintro ⟨a, ha, w, ⟨node, hn, hk, hw⟩ | ⟨hk, ws, hws, hw⟩, rfl⟩
    · exact .inl ⟨a, ha, node, hn, hk, w, hw, rfl⟩
    · exact .inr ⟨a, ha, hk, ws, hws, w, hw, rfl⟩

/-- The rules of the registry are rules of this library. -/
def Builtin (R : Registry) : Prop := ∀ a ∈ R.rules, a.rule ∈ builtinRules

theorem builtin_ofRules {rules : List Rule} (h : ∀ r ∈ rules, r ∈ builtinRules) : (ofRules rules).Builtin := by
  intro a ha
  obtain ⟨r, hr, rfl⟩ := List.mem_map.1 ha
  exact h r hr

theorem builtin_builtin : builtin.Builtin := builtin_ofRules fun _ h => h

end Registry

/-- A rule of this library is told from the others by its id. -/
theorem eq_of_id_eq {r r' : Rule} (h : r ∈ builtinRules) (h' : r' ∈ builtinRules) (hid : r.id = r'.id) : r = r' :=
  List.inj_on_of_nodup_map (by decide : (builtinRules.map Rule.id).Nodup) h h' hid

/-- The regions that rules of this library report on nodes. -/
inductive Rule.Marks (c : RuleContext) : Rule → SyntaxNode → Span → Prop
  | gap {r n k left right s} (h : n.gap? = some (k, left, right))
      (hs : s = c.document.gapSpan left right ∨ s = c.document.span right) : Marks c r n s
  | body {keyword body kind} :
      Marks c .usingRequiresBraces (.usingStatement keyword body kind) (c.document.rangeSpan body)
  | branches {extent disjunction bodyFirst endsWithElse} :
      Marks c .separateExitConditions (.ifStatement extent disjunction bodyFirst endsWithElse)
        (c.document.rangeSpan extent)
  | call {n callee opening} (h : SyntaxNode.invocation callee opening ∈ c.tree.nodes) :
      Marks c .extensionMethodCallInTests n (c.callAt callee opening).extent
  | operator {token role} : Marks c .operatorAtLineStart (.operator token role) (c.document.span token)

theorem GapContract.span_of_check? {k : GapContract} {d : Document} {left right : Nat} {s : Span}
    (h : k.check? d left right = some s) : s = d.gapSpan left right ∨ s = d.span right := by
  unfold check? at h
  dsimp only at h
  repeat' split at h
  all_goals first
    | exact .inl (Option.some.inj h).symm
    | exact .inr (Option.some.inj h).symm
    | cases h

/-- The calls of a body that are not part of another call are among its calls. -/
theorem TestCall.mem_of_mem_outermostFrom {call : TestCall} : ∀ {calls : List TestCall} {reached : Nat},
    call ∈ outermostFrom reached calls → call ∈ calls
  | [], _, h => h
  | _ :: rest, _, h => by
    rw [outermostFrom] at h
    split at h
    · exact List.mem_cons_of_mem _ (mem_of_mem_outermostFrom h)
    · rcases List.mem_cons.1 h with rfl | h
      · exact List.mem_cons_self
      · exact List.mem_cons_of_mem _ (mem_of_mem_outermostFrom h)

theorem RuleContext.exists_of_mem_outermostCalls {c : RuleContext} {body : TokenRange} {call : TestCall}
    (h : call ∈ c.outermostCalls body) :
    ∃ callee opening, SyntaxNode.invocation callee opening ∈ c.tree.nodes ∧ call = c.callAt callee opening := by
  obtain ⟨node, hnode, h⟩ := List.mem_filterMap.1 (List.mem_mergeSort.1 (TestCall.mem_of_mem_outermostFrom h))
  split at h
  · rename_i callee opening
    split at h
    · exact ⟨callee, opening, hnode, (Option.some.inj h).symm⟩
    · cases h
  · cases h

theorem Rule.exists_of_mem_ofGap {c : RuleContext} {n : SyntaxNode} {w : Violation} {id description message : String}
    {kinds : List NodeKind} {k : GapContract} {gapOf : SyntaxNode → Option (Nat × Nat)}
    (hof : ∀ left right, gapOf n = some (left, right) → n.gap? = some (k, left, right))
    (hw : w ∈ (Rule.ofGap id description message kinds k gapOf).checkNode c n) :
    ∃ span, w = c.violation id message span ∧ (Rule.ofGap id description message kinds k gapOf).Marks c n span := by
  simp only [Rule.ofGap] at hw
  split at hw
  · rename_i left right hg
    rw [Option.mem_toList] at hw
    obtain ⟨s, hs, rfl⟩ := Option.map_eq_some_iff.1 hw
    exact ⟨s, rfl, .gap (hof left right hg) (GapContract.span_of_check? hs)⟩
  · cases hw

/-- What is said of a keyword. -/
def RuleContext.keywordMessage (c : RuleContext) (keyword : Nat) : String :=
  "'" ++ (c.document.token keyword).text ++ "' must be immediately followed by '('"

theorem Rule.eq_violation_afterKeyword {c : RuleContext} {n : SyntaxNode} {w : Violation}
    (hw : w ∈ Rule.noSpaceAfterKeyword.checkNode c n) : ∃ keyword opening, n = .keywordExpression keyword opening ∧
      w = c.violation Rule.noSpaceAfterKeyword.id (c.keywordMessage keyword) (c.document.gapSpan keyword opening) := by
  simp only [Rule.noSpaceAfterKeyword] at hw
  split at hw
  · rename_i keyword opening
    split at hw
    · cases hw
    · exact ⟨keyword, opening, rfl, List.mem_singleton.1 hw⟩
  · cases hw

/-- **What a rule of this library reports on a node**: its own violation, at a region that the node tells. The message
is the same for all nodes, unless it names the keyword. -/
theorem Rule.exists_message_checkNode {r : Rule} (h : r ∈ builtinRules) (c : RuleContext) :
    ∃ message : SyntaxNode → String, (r ≠ .noSpaceAfterKeyword → ∃ text, ∀ n, message n = text) ∧
      ∀ n, ∀ w ∈ r.checkNode c n, ∃ span, w = c.violation r.id (message n) span ∧ r.Marks c n span := by
  have hone : ∀ text, (∀ n, ∀ w ∈ r.checkNode c n, ∃ span, w = c.violation r.id text span ∧ r.Marks c n span) →
      ∃ message : SyntaxNode → String, (r ≠ .noSpaceAfterKeyword → ∃ text, ∀ n, message n = text) ∧
        ∀ n, ∀ w ∈ r.checkNode c n, ∃ span, w = c.violation r.id (message n) span ∧ r.Marks c n span :=
    fun text h => ⟨fun _ => text, fun _ => ⟨text, fun _ => rfl⟩, h⟩
  simp only [builtinRules, List.mem_cons, List.not_mem_nil, or_false] at h
  rcases h with rfl | rfl | rfl | rfl | rfl | rfl | rfl | rfl | rfl | rfl | rfl | rfl
  · exact hone _ fun n w hw => Rule.exists_of_mem_ofGap (fun left right hg => by cases n <;> cases hg; rfl) hw
  · exact hone _ fun n w hw => Rule.exists_of_mem_ofGap (fun left right hg => by cases n <;> cases hg <;> rfl) hw
  · refine ⟨fun n => c.keywordMessage n.anchor, fun hne => absurd rfl hne, fun n w hw => ?_⟩
    obtain ⟨keyword, opening, rfl, rfl⟩ := Rule.eq_violation_afterKeyword hw
    exact ⟨_, rfl, .gap rfl (.inl rfl)⟩
  · exact hone "" fun n w hw => by cases hw
  · exact hone "" fun n w hw => by cases hw
  · exact hone "" fun n w hw => by cases hw
  · exact hone _ fun n w hw => Rule.exists_of_mem_ofGap (fun left right hg => by cases n <;> cases hg; rfl) hw
  · exact hone _ fun n w hw => Rule.exists_of_mem_ofGap (fun left right hg => by cases n <;> cases hg; rfl) hw
  · refine hone "There must be braces around the codeblock of a using statement" fun n w hw => ?_
    simp only [Rule.usingRequiresBraces] at hw
    split at hw
    · obtain rfl := List.mem_singleton.1 hw
      exact ⟨_, rfl, .body⟩
    · cases hw
  · refine hone "There must not be OR'ed exit conditions" fun n w hw => ?_
    simp only [Rule.separateExitConditions] at hw
    split at hw
    · split at hw
      · obtain rfl := List.mem_singleton.1 hw
        exact ⟨_, rfl, .branches⟩
      · cases hw
    · cases hw
  · refine hone "Extension methods should be tested with normal method invocation syntax" fun n w hw => ?_
    simp only [Rule.extensionMethodCallInTests] at hw
    split at hw
    · split at hw
      · split at hw
        · obtain ⟨call, hcall, rfl⟩ := List.mem_map.1 hw
          obtain ⟨callee, opening, hnode, rfl⟩ :=
            RuleContext.exists_of_mem_outermostCalls (List.mem_of_mem_filter hcall)
          exact ⟨_, rfl, .call hnode⟩
        · cases hw
      · cases hw
    · cases hw
  · refine hone "Operator chaining with newline should have the operator at the beginning of a new line"
      fun n w hw => ?_
    simp only [Rule.operatorAtLineStart] at hw
    split at hw
    · split at hw
      · obtain rfl := List.mem_singleton.1 hw
        exact ⟨_, rfl, .operator⟩
      · cases hw
    · cases hw

theorem Rule.exists_of_mem_checkNode {r : Rule} (h : r ∈ builtinRules) {c : RuleContext} {node : SyntaxNode}
    {w : Violation} (hw : w ∈ r.checkNode c node) :
    ∃ message span, w = c.violation r.id message span ∧ r.Marks c node span := by
  obtain ⟨message, -, hmessage⟩ := Rule.exists_message_checkNode h c
  exact ⟨message node, hmessage node w hw⟩

namespace RuleContext

variable {c : RuleContext} {spans : List Span}

theorem eq_trailingBlanks (h : c.trailingBlanks = .ok spans) : spans = c.document.trailingBlanks := by
  rw [RuleContext.trailingBlanks] at h
  split at h
  · obtain ⟨_, -, h⟩ := bind_eq_ok_iff.1 h
    exact (Except.ok.inj h).symm
  · exact (Except.ok.inj h).symm

theorem trailingBlanks_of_not_cancelled (hc : c.cancelled = false) :
    c.trailingBlanks = .ok c.document.trailingBlanks := by
  rw [RuleContext.trailingBlanks, RuleContext.goOn, hc]
  split <;> rfl

theorem eq_longLines {limit : Nat} (h : c.longLines limit = .ok spans) : spans = c.document.longLines limit := by
  obtain ⟨_, -, h⟩ := bind_eq_ok_iff.1 h
  exact (Except.ok.inj h).symm

theorem longLines_of_not_cancelled (hc : c.cancelled = false) (limit : Nat) :
    c.longLines limit = .ok (c.document.longLines limit) := by
  rw [RuleContext.longLines, RuleContext.goOn, hc]
  rfl

end RuleContext

/-- Three rules look at whole documents, all others at nodes only. -/
theorem Rule.cases_checkDocument {r : Rule} (h : r ∈ builtinRules) :
    r = .noTrailingWhitespace ∨ r = .finalNewline ∨ r = .maxLineLength ∨
      (r.nodeKinds ≠ [] ∧ ∀ c, r.checkDocument c = .ok []) := by
  have hnodes : r.nodeKinds ≠ [] → (∀ c, r.checkDocument c = .ok []) → r = .noTrailingWhitespace ∨
      r = .finalNewline ∨ r = .maxLineLength ∨ (r.nodeKinds ≠ [] ∧ ∀ c, r.checkDocument c = .ok []) :=
    fun hkinds hnone => .inr (.inr (.inr ⟨hkinds, hnone⟩))
  simp only [builtinRules, List.mem_cons, List.not_mem_nil, or_false] at h
  rcases h with rfl | rfl | rfl | rfl | rfl | rfl | rfl | rfl | rfl | rfl | rfl | rfl
  · exact hnodes (by decide) fun _ => rfl
  · exact hnodes (by decide) fun _ => rfl
  · exact hnodes (by decide) fun _ => rfl
  · exact .inl rfl
  · exact .inr (.inl rfl)
  · exact .inr (.inr (.inl rfl))
  · exact hnodes (by decide) fun _ => rfl
  · exact hnodes (by decide) fun _ => rfl
  · exact hnodes (by decide) fun _ => rfl
  · exact hnodes (by decide) fun _ => rfl
  · exact hnodes (by decide) fun _ => rfl
  · exact hnodes (by decide) fun _ => rfl

/-- What a rule of this library reports on a whole document. -/
theorem Rule.checkDocument_eq {r : Rule} (h : r ∈ builtinRules) {c : RuleContext} {ws : List Violation}
    (hws : r.checkDocument c = .ok ws) : ∃ message spans, ws = spans.map (c.violation r.id message) ∧
      ((r = .noTrailingWhitespace ∧ spans = c.document.trailingBlanks) ∨
        (r = .finalNewline ∧ spans = (c.document.finalBreak?.map FinalBreak.span).toList) ∨
        (r = .maxLineLength ∧ spans = c.document.longLines c.options.maxLineLength) ∨
        (r.nodeKinds ≠ [] ∧ spans = [])) := by
  rcases Rule.cases_checkDocument h with rfl | rfl | rfl | ⟨hkinds, hnone⟩
  · obtain ⟨spans, hspans, hws⟩ := bind_eq_ok_iff.1 hws
    obtain rfl := Except.ok.inj hws
    exact ⟨_, spans, rfl, .inl ⟨rfl, RuleContext.eq_trailingBlanks hspans⟩⟩
  · obtain rfl := Except.ok.inj hws
    refine ⟨"The file must end with a single newline.", _, ?_, .inr (.inl ⟨rfl, rfl⟩)⟩
    cases c.document.finalBreak? <;> rfl
  · obtain ⟨spans, hspans, hws⟩ := bind_eq_ok_iff.1 hws
    obtain rfl := Except.ok.inj hws
    exact ⟨_, spans, rfl, .inr (.inr (.inl ⟨rfl, RuleContext.eq_longLines hspans⟩))⟩
  · obtain rfl := Except.ok.inj ((hnone c).symm.trans hws)
    exact ⟨"", [], rfl, .inr (.inr (.inr ⟨hkinds, rfl⟩))⟩

/-- Unless it is called off, a rule of this library reports. -/
theorem Rule.exists_checkDocument {r : Rule} (h : r ∈ builtinRules) {c : RuleContext} (hc : c.cancelled = false) :
    ∃ ws, r.checkDocument c = .ok ws := by
  rcases Rule.cases_checkDocument h with rfl | rfl | rfl | ⟨-, hnone⟩
  · exact ⟨_, bind_eq_ok_iff.2 ⟨_, RuleContext.trailingBlanks_of_not_cancelled hc, rfl⟩⟩
  · exact ⟨_, rfl⟩
  · exact ⟨_, bind_eq_ok_iff.2 ⟨_, RuleContext.longLines_of_not_cancelled hc _, rfl⟩⟩
  · exact ⟨[], hnone c⟩

theorem Rule.Reports.ruleId {r : Rule} (h : r ∈ builtinRules) {c : RuleContext} {w : Violation} (hw : r.Reports c w) :
    w.ruleId = r.id := by
  rcases hw with ⟨node, -, -, hw⟩ | ⟨-, ws, hws, hw⟩
  · obtain ⟨message, span, rfl, -⟩ := Rule.exists_of_mem_checkNode h hw
    rfl
  · obtain ⟨message, spans, rfl, -⟩ := Rule.checkDocument_eq h hws
    obtain ⟨s, -, rfl⟩ := List.mem_map.1 hw
    rfl

namespace Registry

variable {R : Registry}

/-- The rule found by an id has that id. -/
theorem mem_of_find? {id : String} {a : ActiveRule} (h : R.find? id = some a) : a ∈ R.rules ∧ a.rule.id = id := by
  rw [find?] at h
  have hid := List.find?_some h
  exact ⟨List.mem_of_find?_eq_some h, beq_iff_eq.1 hid⟩

/-- **A violation is mended by the rule whose id it carries.** -/
theorem editFor?_eq (hR : R.Builtin) {a : ActiveRule} (ha : a ∈ R.rules) (d : Document) {v : Violation}
    (hv : v.ruleId = a.rule.id) :
    R.editFor? d v = if a.rule.fixable then (a.rule.fix d v.span).filter (!·.isEmpty) else none := by
  rw [editFor?, hv]
  cases hf : R.find? a.rule.id with
  | none =>
    have := List.find?_eq_none.1 hf a ha
    simp at this
  | some b =>
    obtain ⟨hb, hid⟩ := mem_of_find? hf
    rw [eq_of_id_eq (hR a ha) (hR b hb) hid.symm]

theorem analyze_eq {c : RuleContext} (hc : c.cancelled = false) {found : List Violation}
    (h : R.checkDocument c = .ok found) :
    R.analyze c = .ok ((R.checkNodes c ++ found).mergeSort Violation.le).eraseReps := by
  have hgo : c.goOn = .ok () := by rw [RuleContext.goOn, hc]; rfl
  rw [analyze, hgo, h]
  split <;> rfl

/-- Violations that are found in order are listed as they are found. -/
theorem analyze_of_pairwise {c : RuleContext} (hc : c.cancelled = false) {found : List Violation}
    (h : R.checkDocument c = .ok found) (hle : (R.checkNodes c ++ found).Pairwise fun v w => v.le w = true) :
    R.analyze c = .ok (R.checkNodes c ++ found).eraseReps := by
  rw [analyze_eq hc h, List.mergeSort_of_pairwise hle]

/-- **An analysis that is not called off does not fail.** -/
theorem exists_analyze (hR : R.Builtin) {c : RuleContext} (hc : c.cancelled = false) : ∃ vs, R.analyze c = .ok vs := by
  obtain ⟨lists, hlists⟩ := exists_forall₂ (l := R.documentRules)
    (R := fun active ws => active.report <$> active.rule.checkDocument c = .ok ws) fun a ha => by
      obtain ⟨ws, hws⟩ := Rule.exists_checkDocument (hR a (List.mem_filter.1 ha).1) hc
      exact ⟨a.report ws, by rw [hws]; rfl⟩
  exact ⟨_, @analyze_eq R c hc lists.flatten (by rw [checkDocument, mapM_eq_ok_iff.2 hlists]; rfl)⟩

end Registry

end LayoutLint
