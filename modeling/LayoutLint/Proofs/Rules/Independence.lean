import LayoutLint.Proofs.Fix.Edits
/-!
# Independence — rules do not interfere

What a rule reports depends on the text alone. So a registry with fewer rules lists what one with more rules lists of
them, each violation with its own severity (`Registry.analyze_independent`). A rule has one message, or one for each
keyword, so two of its violations with one region are the same (`Rule.Reports.eq_of_span`); violations that are listed
are therefore strictly in order (`pairwise_precedes`), and a list of that kind is told by its members.
-/
namespace LayoutLint

/-! ### One rule -/

variable {c : RuleContext} {r : Rule}

/-- **A rule has one message**, but for the rule that names the keyword. -/
theorem Rule.exists_message (h : r ∈ builtinRules) (hr : r.id ≠ Rule.noSpaceAfterKeyword.id) (c : RuleContext) :
    ∃ message, ∀ w, r.Reports c w → w = c.violation r.id message w.span := by
  by_cases hkinds : r.nodeKinds = []
  · cases hws : r.checkDocument c with
    | error e =>
      refine ⟨"", fun w hw => ?_⟩
      rcases hw with ⟨n, -, hkind, -⟩ | ⟨-, ws, hws', -⟩
      · rw [hkinds] at hkind
        cases hkind
      · exact nomatch hws.symm.trans hws'
    | ok ws =>
      obtain ⟨message, spans, rfl, -⟩ := Rule.checkDocument_eq h hws
      refine ⟨message, fun w hw => ?_⟩
      rcases hw with ⟨n, -, hkind, -⟩ | ⟨-, ws, hws', hw⟩
      · rw [hkinds] at hkind
        cases hkind
      · obtain rfl := Except.ok.inj (hws.symm.trans hws')
        obtain ⟨s, -, rfl⟩ := List.mem_map.1 hw
        rfl
  · obtain ⟨message, hsame, hmessage⟩ := Rule.exists_message_checkNode h c
    obtain ⟨text, htext⟩ := hsame fun heq => hr (congrArg Rule.id heq)
    refine ⟨text, fun w hw => ?_⟩
    rcases hw with ⟨n, -, -, hw⟩ | ⟨hnil, -⟩
    · obtain ⟨span, rfl, -⟩ := hmessage n w hw
      rw [htext]
      rfl
    · exact absurd hnil hkinds

/-- **A rule has at most one violation for a region.** -/
theorem Rule.Reports.eq_of_span (hd : c.document.Parsed) (ht : SyntaxTree.ofDocument? c.document = some c.tree)
    (h : r ∈ builtinRules) {w w' : Violation} (hw : r.Reports c w) (hw' : r.Reports c w') (hs : w.span = w'.span) :
    w = w' := by
  by_cases hr : r.id = Rule.noSpaceAfterKeyword.id
  · have hkeyword : Rule.noSpaceAfterKeyword ∈ builtinRules := by simp [builtinRules]
    obtain rfl := eq_of_id_eq h hkeyword hr
    -- The region starts where the keyword ends, which tells the keyword.
    have hreport : ∀ {w : Violation}, Rule.noSpaceAfterKeyword.Reports c w → ∃ keyword,
        c.document.tokenFrom w.span.start = keyword + 1 ∧
          w = c.violation Rule.noSpaceAfterKeyword.id (c.keywordMessage keyword) w.span := by
      intro w hw
      rcases hw with ⟨n, hn, -, hw⟩ | ⟨hnil, -⟩
      · obtain ⟨keyword, opening, rfl, rfl⟩ := Rule.eq_violation_afterKeyword hw
        obtain ⟨-, hlt⟩ := Registry.next_of_gap? hd ht hn rfl
        exact ⟨keyword, hd.proper.tokenFrom_gapStart (j := keyword + 1) hlt, rfl⟩
      · cases hnil
    obtain ⟨keyword, hfrom, heq⟩ := hreport hw
    obtain ⟨keyword', hfrom', heq'⟩ := hreport hw'
    rw [hs, hfrom', Nat.add_right_cancel_iff] at hfrom
    rw [heq, heq', hs, hfrom]
  · obtain ⟨message, hmessage⟩ := Rule.exists_message h hr c
    rw [hmessage w hw, hmessage w' hw', hs]

/-! ### All rules of a registry -/

namespace Violation

/-- The first violation comes strictly before the second: by the start of its region, then by the end of it, then by
the id of its rule. -/
def Precedes (v w : Violation) : Prop :=
  v.span.start < w.span.start ∨ v.span.start = w.span.start ∧
    (v.span.stop < w.span.stop ∨ v.span.stop = w.span.stop ∧ v.ruleId < w.ruleId)

theorem Precedes.asymm {v w : Violation} (h : v.Precedes w) (h' : w.Precedes v) : False := by
  rcases h with h | ⟨h₁, h | ⟨h₂, h⟩⟩ <;> rcases h' with h' | ⟨h₁', h' | ⟨h₂', h'⟩⟩ <;>
    first
      | omega
      | exact String.lt_asymm h h'

theorem Precedes.trans {u v w : Violation} (h : u.Precedes v) (h' : v.Precedes w) : u.Precedes w := by
  unfold Precedes at h h' ⊢
  rcases h with h | ⟨h₁, h | ⟨h₂, h⟩⟩ <;> rcases h' with h' | ⟨h₁', h' | ⟨h₂', h'⟩⟩ <;>
    first
      | omega
      | exact .inr ⟨h₁.trans h₁', .inr ⟨h₂.trans h₂', String.lt_trans h h'⟩⟩

theorem le_iff {v w : Violation} : v.le w = true ↔ v.Precedes w ∨ v.span = w.span ∧ v.ruleId = w.ruleId := by
  rw [Violation.le, Precedes]
  split
  · rename_i hs
    rw [decide_eq_true_eq, Std.le_iff_lt_or_eq]
    simp only [hs, Nat.lt_irrefl, true_and, false_or]
  · rename_i hs
    have hne : ¬ (v.span.start = w.span.start ∧ v.span.stop = w.span.stop) := fun ⟨h₁, h₂⟩ => hs (by
      cases hv : v.span
      cases hw : w.span
      rw [hv, hw] at h₁ h₂
      rw [Span.mk.injEq]
      exact ⟨h₁, h₂⟩)
    simp only [hs, false_and, or_false, Span.le, Bool.or_eq_true, Bool.and_eq_true, decide_eq_true_eq, beq_iff_eq]
    refine or_congr_right ⟨fun ⟨h₁, h₂⟩ => ⟨h₁, .inl (by omega)⟩, fun ⟨h₁, h₂⟩ => ⟨h₁, ?_⟩⟩
    rcases h₂ with h₂ | ⟨h₂, -⟩ <;> omega

/-- Violations in the order in which an analysis lists them. -/
theorem pairwise_mergeSort_le (vs : List Violation) :
    (vs.mergeSort Violation.le).Pairwise fun v w => v.le w = true := by
  refine List.pairwise_mergeSort (fun u v w huv hvw => ?_) (fun v w => ?_) vs
  · rw [le_iff] at huv hvw ⊢
    rcases huv with huv | ⟨hs, hid⟩
    · rcases hvw with hvw | ⟨hs, hid⟩
      · exact .inl (huv.trans hvw)
      · exact .inl (by rwa [Precedes, ← hs, ← hid])
    · rw [Precedes, hs, hid]
      exact hvw
  · rw [Violation.le, Violation.le, Bool.or_eq_true]
    by_cases hs : v.span = w.span
    · rw [if_pos hs, if_pos hs.symm, decide_eq_true_eq, decide_eq_true_eq]
      exact String.le_total _ _
    · rw [if_neg hs, if_neg (Ne.symm hs)]
      simp only [Span.le, Bool.or_eq_true, Bool.and_eq_true, decide_eq_true_eq, beq_iff_eq]
      omega

end Violation

namespace Registry

variable {R : Registry}

/-- No rule is active twice. -/
def Distinct (R : Registry) : Prop := (R.rules.map (·.rule.id)).Nodup

theorem distinct_builtin : builtin.Distinct := by unfold Distinct; decide

theorem Distinct.find?_eq (h : R.Distinct) {a : ActiveRule} (ha : a ∈ R.rules) : R.find? a.rule.id = some a := by
  cases hf : R.find? a.rule.id with
  | none =>
    have := List.find?_eq_none.1 hf a ha
    simp at this
  | some b =>
    obtain ⟨hb, hid⟩ := mem_of_find? hf
    rw [List.inj_on_of_nodup_map h hb ha hid]

/-- The violation with the severity that the registry gives its rule; `none` when the rule is not active. -/
def graded? (R : Registry) (v : Violation) : Option Violation :=
  (R.find? v.ruleId).map fun a => { v with severity := a.severity }

/-- Two violations that an analysis lists are the same if they have the same region and the same rule. -/
theorem eq_of_mem_analyze (hR : R.Builtin) (hn : R.Distinct) (hd : c.document.Parsed)
    (ht : SyntaxTree.ofDocument? c.document = some c.tree) {vs : List Violation} (hvs : R.analyze c = .ok vs)
    {v w : Violation} (hv : v ∈ vs) (hw : w ∈ vs) (hs : v.span = w.span) (hid : v.ruleId = w.ruleId) : v = w := by
  obtain ⟨a, ha, x, hx, rfl⟩ := (mem_analyze hvs).1 hv
  obtain ⟨b, hb, y, hy, rfl⟩ := (mem_analyze hvs).1 hw
  have hrule : a.rule.id = b.rule.id := (hx.ruleId (hR a ha)).symm.trans (hid.trans (hy.ruleId (hR b hb)))
  obtain rfl := List.inj_on_of_nodup_map hn ha hb hrule
  rw [hx.eq_of_span hd ht (hR a ha) hy hs]

/-- **Violations are listed strictly in order.** -/
theorem pairwise_precedes (hR : R.Builtin) (hn : R.Distinct) (hd : c.document.Parsed)
    (ht : SyntaxTree.ofDocument? c.document = some c.tree) {vs : List Violation} (hvs : R.analyze c = .ok vs) :
    vs.Pairwise Violation.Precedes := by
  obtain ⟨found, -, rfl⟩ := exists_of_analyze hvs
  have hanti : ∀ v ∈ (R.checkNodes c ++ found).mergeSort Violation.le,
      ∀ w ∈ (R.checkNodes c ++ found).mergeSort Violation.le, v.le w = true → w.le v = true → v = w := by
    intro v hv w hw hle hle'
    rw [Violation.le_iff] at hle hle'
    have hkey : v.span = w.span ∧ v.ruleId = w.ruleId := by
      rcases hle with hle | hle
      · rcases hle' with hle' | ⟨hs, hid⟩
        · exact (hle.asymm hle').elim
        · exact ⟨hs.symm, hid.symm⟩
      · exact hle
    exact eq_of_mem_analyze hR hn hd ht hvs ((mem_eraseReps _).2 hv) ((mem_eraseReps _).2 hw) hkey.1 hkey.2
  refine (pairwise_eraseReps hanti (Violation.pairwise_mergeSort_le _)).imp_of_mem fun {v w} hv hw ⟨hle, hne⟩ => ?_
  refine (Violation.le_iff.1 hle).resolve_right fun ⟨hs, hid⟩ => hne ?_
  exact eq_of_mem_analyze hR hn hd ht hvs hv hw hs hid

/-- Two lists of violations in order are the same if they have the same members. -/
theorem eq_of_mem_iff {vs ws : List Violation} (hvs : vs.Pairwise Violation.Precedes)
    (hws : ws.Pairwise Violation.Precedes) (h : ∀ v, v ∈ vs ↔ v ∈ ws) : vs = ws := by
  have hnodup : ∀ {us : List Violation}, us.Pairwise Violation.Precedes → us.Nodup := fun h =>
    h.imp fun hvw heq => (heq ▸ hvw).asymm (heq ▸ hvw)
  exact ((List.perm_ext_iff_of_nodup (hnodup hvs) (hnodup hws)).2 h).eq_of_pairwise
    (fun _ _ _ _ h h' => (h.asymm h').elim) hvs hws

theorem graded?_eq_some_iff (hn : R.Distinct) {v w : Violation} : R.graded? v = some w ↔
    ∃ a ∈ R.rules, a.rule.id = v.ruleId ∧ w = { v with severity := a.severity } := by
  rw [graded?, Option.map_eq_some_iff]
  constructor
  · rintro ⟨a, ha, rfl⟩
    obtain ⟨hmem, hid⟩ := mem_of_find? ha
    exact ⟨a, hmem, hid, rfl⟩
  · rintro ⟨a, ha, hid, rfl⟩
    exact ⟨a, hid ▸ hn.find?_eq ha, rfl⟩

/-- Giving other severities keeps violations in order. -/
theorem pairwise_filterMap_graded? (R : Registry) {vs : List Violation} (h : vs.Pairwise Violation.Precedes) :
    (vs.filterMap R.graded?).Pairwise Violation.Precedes := by
  have hkey : ∀ {v w : Violation}, R.graded? v = some w → w.span = v.span ∧ w.ruleId = v.ruleId := by
    intro v w hw
    obtain ⟨a, -, rfl⟩ := Option.map_eq_some_iff.1 hw
    exact ⟨rfl, rfl⟩
  refine h.filterMap _ fun v w hvw v' hv' w' hw' => ?_
  obtain ⟨hs, hid⟩ := hkey hv'
  obtain ⟨hs', hid'⟩ := hkey hw'
  rwa [Violation.Precedes, hs, hid, hs', hid']

/-- **What a registry lists is what one with more rules lists of its rules.** -/
theorem analyze_eq_filterMap (hd : c.document.Parsed) (ht : SyntaxTree.ofDocument? c.document = some c.tree)
    {R' : Registry} (hR : R.Builtin) (hR' : R'.Builtin) (hn : R.Distinct) (hn' : R'.Distinct)
    (hsub : ∀ a ∈ R.rules, ∃ b ∈ R'.rules, b.rule = a.rule) {vs ws : List Violation} (hvs : R.analyze c = .ok vs)
    (hws : R'.analyze c = .ok ws) : vs = ws.filterMap R.graded? := by
  refine eq_of_mem_iff (pairwise_precedes hR hn hd ht hvs)
    (pairwise_filterMap_graded? R (pairwise_precedes hR' hn' hd ht hws)) fun v => ?_
  simp only [List.mem_filterMap, mem_analyze hvs, mem_analyze hws, graded?_eq_some_iff hn]
  constructor
  · rintro ⟨a, ha, w, hw, rfl⟩
    obtain ⟨b, hb, hrule⟩ := hsub a ha
    exact ⟨_, ⟨b, hb, w, hrule ▸ hw, rfl⟩, a, ha, (hw.ruleId (hR a ha)).symm, rfl⟩
  · rintro ⟨_, ⟨b, hb, w, hw, rfl⟩, a, ha, hid, rfl⟩
    have hrule := eq_of_id_eq (hR a ha) (hR' b hb) (hid.trans (hw.ruleId (hR' b hb)))
    exact ⟨a, ha, w, hrule ▸ hw, rfl⟩

/-- **Rules do not interfere**: a registry lists what one with more rules lists of its rules, each violation with the
severity that its own registry gives the rule. Whatever an analysis lists is strictly in order, so no rule reports a
region twice. -/
theorem analyze_independent {s : String} {p : Program} (hp : Program.parse s = .ok p) (options : AnalyzerOptions)
    {R R' : Registry} (hR : R.Builtin) (hR' : R'.Builtin) (hn : R.Distinct) (hn' : R'.Distinct)
    (hsub : ∀ a ∈ R.rules, ∃ b ∈ R'.rules, b.rule = a.rule) :
    (∃ vs ws, R.analyze { document := p.document, tree := p.tree, options } = .ok vs ∧
      R'.analyze { document := p.document, tree := p.tree, options } = .ok ws ∧
      vs = ws.filterMap R.graded? ∧ ws = ws.filterMap R'.graded?) ∧
    ∀ cancelled ws, R'.analyze { document := p.document, tree := p.tree, options, cancelled } = .ok ws →
      ws.Pairwise Violation.Precedes := by
  obtain ⟨-, hdoc, htree⟩ := Program.parse_eq_ok_iff.1 hp
  obtain ⟨hd, -⟩ := Document.parsed_of_ofSource hdoc
  let c : RuleContext := { document := p.document, tree := p.tree, options }
  obtain ⟨vs, hvs⟩ := exists_analyze hR (c := c) rfl
  obtain ⟨ws, hws⟩ := exists_analyze hR' (c := c) rfl
  refine ⟨⟨vs, ws, hvs, hws, ?_, ?_⟩, fun cancelled ws hws => pairwise_precedes
    (c := { document := p.document, tree := p.tree, options, cancelled }) hR' hn' hd htree hws⟩
  · exact analyze_eq_filterMap (c := c) hd htree hR hR' hn hn' hsub hvs hws
  · exact analyze_eq_filterMap (c := c) hd htree hR' hR' hn' hn' (fun a ha => ⟨a, ha, rfl⟩) hws hws

/-- White space at ends of lines, as the only rule and among all rules. -/
theorem analyze_independent_trailing : ∃ p vs ws, Program.parse "f (x) \n" = .ok p ∧
    analyze ⟨[{ rule := .noTrailingWhitespace, severity := .warning }]⟩ { document := p.document, tree := p.tree } =
      .ok vs ∧
    builtin.analyze { document := p.document, tree := p.tree } = .ok ws ∧
    vs = ws.filterMap (graded? ⟨[{ rule := .noTrailingWhitespace, severity := .warning }]⟩) := by
  obtain ⟨p, hp, -⟩ := exists_ok_of_any (e := Program.parse "f (x) \n") (p := fun _ => true) (by decide +kernel)
  obtain ⟨⟨vs, ws, hvs, hws, heq, -⟩, -⟩ := analyze_independent hp {}
    (R := ⟨[{ rule := .noTrailingWhitespace, severity := .warning }]⟩)
    (fun a ha => List.mem_singleton.1 ha ▸ by simp [builtinRules]) builtin_builtin (List.nodup_singleton _)
    distinct_builtin fun a ha => ⟨{ rule := .noTrailingWhitespace }, by simp [builtin, ofRules, builtinRules],
      List.mem_singleton.1 ha ▸ rfl⟩
  exact ⟨p, vs, ws, hp, hvs, hws, heq⟩

end Registry

end LayoutLint
